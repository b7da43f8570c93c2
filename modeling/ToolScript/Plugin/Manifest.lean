import ToolScript.Json.Record
import ToolScript.Text.Blank
import ToolScript.Text.Key

/-! # Plugin manifests

    A plugin announces itself by a manifest: its name, its category and the commands it offers, each with a schema of
    its arguments. A manifest is built from its parts, with names that are not blank, or read from JSON as it is. -/

namespace ToolScript
open Json

/-- A command that a plugin offers. -/
structure Command where
  id : String
  description : String
  schema : Option Value

/-- The lists of commands in a manifest. The first of them that is there counts. -/
structure Capabilities where
  invocationCommands : Option (List Command)
  toolDefinitions : Option (List Command)

structure Manifest where
  name : String
  displayName : Option String
  description : Option String
  category : String
  capabilities : Capabilities

/-- What is wrong with the parts of a manifest. -/
inductive ManifestFault where
  | blankName
  | blankCategory
  | blankCommand
  deriving DecidableEq

def ManifestFault.message (f : ManifestFault) : String :=
  let reason := match f with
    | .blankName => "plugin name cannot be empty"
    | .blankCategory => "plugin category cannot be empty"
    | .blankCommand => "command identifier cannot be empty"
  "invalid plugin manifest: " ++ reason

/-- The category of a plugin that names none. -/
def defaultCategory : String := "core"

namespace Command

def new (id description : String) : Except ManifestFault Command :=
  if Text.allBlank id then .error .blankCommand else .ok ⟨id, description, none⟩

def withSchema (c : Command) (schema : Value) : Command :=
  { c with schema := some schema }

end Command

namespace Manifest

/-- A manifest with the given parts. -/
def new (name : String) (displayName description : Option String) (category : String) (commands : List Command) :
    Except ManifestFault Manifest :=
  if Text.allBlank name then .error .blankName
  else if Text.allBlank category then .error .blankCategory
  else .ok ⟨name, displayName, description, category, ⟨some commands, none⟩⟩

def normalName (m : Manifest) : String :=
  Text.normalKey m.name

/-- The name shown to readers. -/
def title (m : Manifest) : String :=
  m.displayName.getD m.name

def commands (m : Manifest) : List Command :=
  (m.capabilities.invocationCommands.or m.capabilities.toolDefinitions).getD []

/-- The command with exactly the given identifier. -/
def command? (m : Manifest) (id : String) : Option Command :=
  m.commands.find? (·.id == id)

end Manifest

/-! ### In JSON -/

namespace Command

def json (c : Command) : Value :=
  record [("commandIdentifier", some (.string c.id)), ("description", some (.string c.description)),
    ("inputSchema", c.schema)]

def read? : Reader Command := fun n => do
  match ← n.slots? ["commandIdentifier", "description", "inputSchema"] with
  | [id, description, schema] =>
    return {
      id := ← required Node.string? id
      description := ← defaulted "" Node.string? description
      schema := ← optional Node.value? schema }
  | _ => none

end Command

namespace Capabilities

def json (c : Capabilities) : Value :=
  let list (commands : List Command) : Value := .array (commands.map Command.json)
  record [("invocationCommands", c.invocationCommands.map list), ("toolDefinitions", c.toolDefinitions.map list)]

def read? : Reader Capabilities := fun n => do
  match ← n.slots? ["invocationCommands", "toolDefinitions"] with
  | [invocationCommands, toolDefinitions] =>
    return {
      invocationCommands := ← optional (Node.list? Command.read?) invocationCommands
      toolDefinitions := ← optional (Node.list? Command.read?) toolDefinitions }
  | _ => none

end Capabilities

namespace Manifest

def json (m : Manifest) : Value :=
  record [("name", some (.string m.name)), ("displayName", m.displayName.map .string),
    ("description", m.description.map .string), ("_category", some (.string m.category)),
    ("capabilities", some m.capabilities.json)]

def read? : Reader Manifest := fun n => do
  match ← n.slots? ["name", "displayName", "description", "_category", "capabilities"] with
  | [name, displayName, description, category, capabilities] =>
    return {
      name := ← required Node.string? name
      displayName := ← optional Node.string? displayName
      description := ← optional Node.string? description
      category := ← defaulted defaultCategory Node.string? category
      capabilities := ← defaulted ⟨none, none⟩ Capabilities.read? capabilities }
  | _ => none

end Manifest

end ToolScript
