import ToolScript.Script.Parser
import ToolScript.Script.Scope

/-! # Running scripts

    The statements of a script run in order until one fails. What a call does is for an executor to say, which may
    keep a state of its own from one call to the next. -/

namespace ToolScript.Script

/-- The failure of a tool call. -/
structure RunError where
  tool : String
  reason : String
  deriving DecidableEq

def RunError.message (e : RunError) : String :=
  "tool `" ++ e.tool ++ "` failed: " ++ e.reason

/-- Runs a tool with named arguments. -/
abbrev Executor (σ : Type) := String → Params → σ → Except RunError Value × σ

namespace Expr

mutual

/-- The value of an argument; a variable without a value is null. -/
def value (scope : Scope) : Expr → Value
  | .literal l => l.value
  | .reference name => (scope.get? name).getD .null
  | .list items => .array (values scope items)

def values (scope : Scope) : List Expr → List Value
  | [] => []
  | e :: rest => value scope e :: values scope rest

end

end Expr

/-- The named arguments of a call, evaluated. -/
def Call.params (c : Call) (scope : Scope) : Params :=
  c.args.map fun _ e => e.value scope

/-- How a run ended: its result, and the scope and the executor's state it left. -/
structure Outcome (σ : Type) where
  result : Except RunError Value
  scope : Scope
  state : σ

variable {σ : Type}

/-- The result of a statement, kept in its variable if it has one. -/
def Statement.keep (s : Statement) (v : Value) (scope : Scope) : Value × Scope :=
  match s.target with
  | some name => scope.bind name v
  | none => (v, scope)

def runFrom (exec : Executor σ) (last : Value) (scope : Scope) (state : σ) : List Statement → Outcome σ
  | [] => ⟨.ok last, scope, state⟩
  | s :: rest =>
    match exec s.call.tool (s.call.params scope) state with
    | (.ok v, state) =>
      let (v, scope) := s.keep v scope
      runFrom exec v scope state rest
    | (.error e, state) => ⟨.error e, scope, state⟩

/-- Runs a script in a fresh scope. The result is that of the last statement, and null for the empty script. -/
def run (exec : Executor σ) (limits : ScopeLimits) (state : σ) (script : List Statement) : Outcome σ :=
  runFrom exec .null (.new limits) state script

end ToolScript.Script
