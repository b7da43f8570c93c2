import ToolScript.Plugin.Manifest
import ToolScript.Tool.Catalog

/-! # Descriptions of plugins

    The plugins of a category are described to the model in the order of their names: a heading, a summary, and the
    commands with the names of their arguments. -/

namespace ToolScript
open Json

/-- Which categories of plugins are described. -/
inductive CategoryFilter where
  | core
  | work
  | plugins
  | all
  deriving DecidableEq

namespace CategoryFilter

def name : CategoryFilter → String
  | .core => "core"
  | .work => "work"
  | .plugins => "plugins"
  | .all => "all"

def ofName? : String → Option CategoryFilter
  | "core" => some .core
  | "work" => some .work
  | "plugins" => some .plugins
  | "all" => some .all
  | _ => none

/-- The filter that a text names, in any ASCII case and with blanks around it. -/
def ofText? (text : String) : Option CategoryFilter :=
  ofName? (String.ofList ((Text.trim text.toList).map Char.toLower))

/-- What is said where a text names no filter. -/
def unknownMessage (text : String) : String :=
  "unknown category filter `" ++ text ++ "`; expected core, work, plugins, or all"

def read? : Reader CategoryFilter := fun n => (Node.name? n).bind ofName?

def admits (f : CategoryFilter) (category : String) : Bool :=
  f = .all || f.name == category

end CategoryFilter

/-- The names of a command's arguments, as its schema has them. -/
def Command.arguments (c : Command) : List String :=
  match ((c.schema.bind (·.field? "properties")).bind Value.asDict?) with
  | some properties => properties.keys
  | none => []

def Command.describe (c : Command) : String :=
  let hint := match c.arguments with
    | [] => ""
    | names => " (Args: " ++ String.intercalate ", " names ++ ")"
  "  - `" ++ c.id ++ "`: " ++ c.description ++ hint ++ "\n"

def Manifest.describe (m : Manifest) : String :=
  let commands := match m.commands with
    | [] => ""
    | commands => "- **Commands**:\n" ++ String.join (commands.map Command.describe)
  "### " ++ m.title ++ "\n- **Summary**: " ++ m.description.getD "" ++ "\n" ++ commands

/-- The descriptions of plugins in the order of their names. -/
def describePlugins (manifests : List Manifest) : String :=
  String.intercalate "\n" ((Catalog.sortedManifests manifests).map Manifest.describe)

end ToolScript
