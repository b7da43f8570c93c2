import ToolScript.Json.Printer
import ToolScript.Security.Gate
import ToolScript.Text.Blank
import ToolScript.Tool.Bridge
import ToolScript.Tool.Catalog

/-! # Finding the tool of a call

    The name of a call is looked up among the tools of the dispatch, then in the registry. If neither has it, a
    parameter may name the command that is meant; it is then taken off the arguments. A tool of a plugin has to pass
    the gate. -/

namespace ToolScript
open Text Security

variable {ε : Type}

/-- The normal forms of the parameters that can name a command, in the order in which they are tried. -/
def routingKeys : List String := ["command", "commandidentifier", "action", "tool"]

/-- The command that a value names: a text that is not blank, or a number. -/
def routedCommand? : Value → Option String
  | .string s => if allBlank s then none else some (trimmed s)
  | .int n => some (Value.int n).compact
  | .float x => some (Value.float x).compact
  | _ => none

/-- The first parameter with a normal form. -/
def routingParam? (params : Params) (key : String) : Option (String × Value) :=
  params.entries.find? fun e => normalKey e.1 == key

/-- The keys under which a command is looked for: as a command of the plugin of the name called, then by itself. -/
def routeKeys (name command : String) : List String :=
  [normalKey (name ++ "." ++ command), normalKey command]

/-- The tool that the parameter with a routing key leads to, and the arguments without that parameter. -/
def routeBy? (registry : Registry (Handle ε)) (name : String) (params : Params) (key : String) :
    Option (Handle ε × Params) := do
  let (param, v) ← routingParam? params key
  let command ← routedCommand? v
  let handle ← (routeKeys name command).findSome? registry.get?
  return (handle, params.erase param)

/-- The tool that some parameter leads to. -/
def route? (registry : Registry (Handle ε)) (name : String) (params : Params) : Option (Handle ε × Params) :=
  routingKeys.findSome? (routeBy? registry name params)

/-- The tool of a call and its arguments, the gate aside. -/
def locate? (registry : Registry (Handle ε)) (extra : ExtraTools (Handle ε)) (name : String) (params : Params) :
    Option (Handle ε × Params) :=
  let key := normalKey name
  match extra.find? key with
  | some h => some (h, params)
  | none => match registry.get? key with
    | some h => some (h, params)
    | none => route? registry name params

/-- The failure of a name that leads to no tool. -/
def missingTool (registry : Registry (Handle ε)) (name : String) : ToolError :=
  match registry.category? (normalKey name) with
  | some tools => .category name tools
  | none => .unknown name

/-- Why the gate refuses a tool. -/
def Handle.denial? (h : Handle ε) (gate : Gate) : Option Denial :=
  h.metadata.plugin.bind fun plugin => gate.denial? plugin (h.metadata.category.getD defaultCategory)

/-- The tool of a call and its arguments. -/
def resolve (registry : Registry (Handle ε)) (gate : Gate) (extra : ExtraTools (Handle ε)) (name : String)
    (params : Params) : Except ToolError (Handle ε × Params) :=
  match locate? registry extra name params with
  | none => .error (missingTool registry name)
  | some (h, params) => match h.denial? gate with
    | some denial => .error (.disabled denial.message)
    | none => .ok (h, params)

end ToolScript
