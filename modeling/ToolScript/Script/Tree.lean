import ToolScript.Script.Token
import ToolScript.Json.Value

/-! # Trees of scripts

    A script is a list of statements. A statement calls a tool with named arguments and may keep the result in a
    variable. -/

namespace ToolScript.Script

inductive Literal where
  | string (s : String)
  | number (n : Number)
  deriving DecidableEq

/-- The value of an argument as written. The language has no form for lists; a tree built by hand may have them. -/
inductive Expr where
  | literal (l : Literal)
  | reference (name : String)
  | list (items : List Expr)

instance : Inhabited Expr := ⟨.list []⟩

structure Call where
  tool : String
  args : Dict Expr
  isAsync : Bool

/-- A call, and the variable that keeps its result. -/
structure Statement where
  target : Option String
  call : Call

namespace Literal

/-- The value that a tool is given; a number that is not finite has none. -/
def value : Literal → Value
  | .string s => .string s
  | .number (.integer n) => .int n
  | .number (.float x) => (Value.ofFloat x).getD .null

def text : Literal → String
  | .string s => s
  | .number n => n.text

end Literal

/-- The text of the argument named `callback`, where it is a literal. -/
def Call.callback? (c : Call) : Option String :=
  match c.args.get? "callback" with
  | some (.literal l) => some l.text
  | _ => none

end ToolScript.Script
