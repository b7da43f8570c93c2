import ToolScript.Json.Record
import ToolScript.Text.Blank
import ToolScript.Text.Key

/-! # What is known of a tool, and how calls fail -/

namespace ToolScript
open Json

/-- The description of a tool. A tool of a plugin carries the plugin's name and category. -/
structure Metadata where
  name : String
  description : Option String
  plugin : Option String
  category : Option String
  schema : Option Value

/-- Why a tool cannot be made or called. -/
inductive ToolError where
  | blankName
  | unknown (name : String)
  /-- The name is that of a plugin, with these tools. -/
  | category (name : String) (tools : List String)
  | disabled (reason : String)
  | execution (reason : String)
  deriving DecidableEq

def ToolError.message : ToolError → String
  | .blankName => "invalid tool metadata: tool name cannot be empty"
  | .unknown name => "tool `" ++ name ++ "` not found (normalized: " ++ Text.normalKey name ++ ")"
  | .category name tools =>
    "`" ++ name ++ "` is a plugin category, not a tool; try one of: " ++ String.intercalate ", " tools
  | .disabled reason => "tool disabled: " ++ reason
  | .execution reason => "tool execution failed: " ++ reason

namespace Metadata

/-- The description of a tool of which no more than the name is known. -/
def new (name : String) : Except ToolError Metadata :=
  if Text.allBlank name then .error .blankName else .ok ⟨name, none, none, none, none⟩

def withDescription (m : Metadata) (description : String) : Metadata :=
  { m with description := some description }

def withPlugin (m : Metadata) (plugin category : String) : Metadata :=
  { m with plugin := some plugin, category := some category }

def withSchema (m : Metadata) (schema : Value) : Metadata :=
  { m with schema := some schema }

/-! ### In JSON -/

def json (m : Metadata) : Value :=
  record [("name", some (.string m.name)), ("description", m.description.map .string),
    ("plugin", m.plugin.map .string), ("category", m.category.map .string), ("input_schema", m.schema)]

def read? : Reader Metadata := fun n => do
  match ← n.slots? ["name", "description", "plugin", "category", "input_schema"] with
  | [name, description, plugin, category, schema] =>
    return {
      name := ← required Node.string? name
      description := ← optional Node.string? description
      plugin := ← optional Node.string? plugin
      category := ← optional Node.string? category
      schema := ← optional Node.value? schema }
  | _ => none

end Metadata

end ToolScript
