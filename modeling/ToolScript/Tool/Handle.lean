import ToolScript.Tool.Coerce
import ToolScript.Tool.Metadata

/-! # Handles of tools

    A handle is a tool that can be called: its description and what stands for its doing. What the doing amounts to
    is for a `Behavior` to say, which may keep a state of its own. Before a call the arguments are brought to the
    schema in the description. A tool that runs apart from its caller can be cut off before it has answered. -/

namespace ToolScript

structure Handle (ε : Type) where
  metadata : Metadata
  impl : ε

/-- What tools do with their arguments. -/
abbrev Behavior (ε σ : Type) := ε → Params → σ → Except ToolError Value × σ

/-- How the run of a tool ends that runs apart from its caller. -/
inductive Ending where
  | answered (answer : Except ToolError Value)
  | aborted (reason : String)

/-- What the caller is told. -/
def Ending.answer : Ending → Except ToolError Value
  | .answered answer => answer
  | .aborted reason => .error (.execution ("blocking tool aborted: " ++ reason))

/-- The behaviour of tools that run apart from their callers. -/
def Behavior.blocking {ε σ : Type} (run : ε → Params → σ → Ending × σ) : Behavior ε σ := fun tool params state =>
  let (ending, state) := run tool params state
  (ending.answer, state)

namespace Handle
variable {ε σ : Type}

/-- The arguments as the tool gets them. -/
def prepare (h : Handle ε) (params : Params) : Params :=
  match h.metadata.schema with
  | some schema => Coerce.params params schema
  | none => params

def invoke (behavior : Behavior ε σ) (h : Handle ε) (params : Params) (state : σ) : Except ToolError Value × σ :=
  behavior h.impl (h.prepare params) state

end Handle

end ToolScript
