import ToolScript.Json.Value

/-! # Variables of a run

    A scope keeps the values of variables within limits: so many variables, and so many characters in a string.
    Longer strings are cut and marked. A new variable beyond the limit is dropped, though its value is still
    answered. -/

namespace ToolScript.Script

structure ScopeLimits where
  maxVariables : Nat
  maxStringLength : Nat
  deriving DecidableEq

def ScopeLimits.default : ScopeLimits := ⟨100, 100000⟩

/-- What follows a string that was cut. -/
def truncationMark : String := "... [truncated by NIT scope]"

/-- A value with its string cut to the limit; strings inside arrays and objects stay. -/
def ScopeLimits.clamp (limits : ScopeLimits) : Value → Value
  | .string s =>
    if s.length > limits.maxStringLength then
      .string (String.ofList (s.toList.take limits.maxStringLength) ++ truncationMark)
    else .string s
  | v => v

structure Scope where
  limits : ScopeLimits
  vars : Dict Value

namespace Scope

def new (limits : ScopeLimits) : Scope := ⟨limits, .empty⟩

def get? (s : Scope) (name : String) : Option Value :=
  s.vars.get? name

/-- Whether there is room for a variable: it is bound already, or the limit is not reached. -/
def hasRoom (s : Scope) (name : String) : Bool :=
  s.vars.contains name || decide (s.vars.size < s.limits.maxVariables)

/-- Binds a variable, and answers the value as it is kept. -/
def bind (s : Scope) (name : String) (v : Value) : Value × Scope :=
  let v := s.limits.clamp v
  (v, if s.hasRoom name then { s with vars := s.vars.insert name v } else s)

end Scope

end ToolScript.Script
