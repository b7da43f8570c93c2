/-! # Records of calls

    Every call of a tool leaves a record with the beginnings of its arguments and of its result. -/

namespace ToolScript

/-- The first characters of a text, with three dots where there are more. -/
def preview (text : String) (max : Nat) : String :=
  let s := text.toList
  if (s.drop max).isEmpty then text else String.ofList (s.take max) ++ "..."

/-- A call that has begun. -/
structure PendingInvocation where
  tool : String
  params : String
  deriving DecidableEq

/-- A call that has ended, in failure if there is an error. -/
structure Invocation where
  tool : String
  params : String
  result : String
  error : Option String
  deriving DecidableEq

namespace Invocation

def paramsLength : Nat := 200
def resultLength : Nat := 100

def start (tool params : String) : PendingInvocation :=
  ⟨tool, preview params paramsLength⟩

def succeeded (i : Invocation) : Bool :=
  i.error.isNone

end Invocation

namespace PendingInvocation

def succeed (p : PendingInvocation) (result : String) : Invocation :=
  ⟨p.tool, p.params, preview result Invocation.resultLength, none⟩

def fail (p : PendingInvocation) (error : String) : Invocation :=
  ⟨p.tool, p.params, "", some error⟩

end PendingInvocation

end ToolScript
