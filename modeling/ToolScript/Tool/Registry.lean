import ToolScript.Data.Dict
import ToolScript.Text.Key

/-! # Registries of names

    A registry finds what is registered under a name by the normal form of the name, and also by the name as it was
    first spelled. Beside the names it lists the tools of every plugin, under the normal form of the plugin's
    name. -/

namespace ToolScript
open Text

structure Registry (α : Type) where
  tools : Dict α
  categories : Dict (List String)

namespace Registry
variable {α : Type}

def empty : Registry α := ⟨.empty, .empty⟩

def get? (r : Registry α) (key : String) : Option α :=
  r.tools.get? key

def keys (r : Registry α) : List String :=
  r.tools.keys

/-- The tools listed for a plugin with the given normal form of its name. -/
def category? (r : Registry α) (normalName : String) : Option (List String) :=
  r.categories.get? normalName

/-! ### Registering -/

/-- Keeps what a map has for a key. -/
def insertNew (d : Dict α) (key : String) (a : α) : Dict α :=
  if d.contains key then d else d.insert key a

/-- Registers a name: under its own spelling unless that is taken, and under its normal form in any case. -/
def register (r : Registry α) (name : String) (a : α) : Registry α :=
  let key := normalKey name
  let tools := if key = name then r.tools else insertNew r.tools name a
  { r with tools := tools.insert key a }

def registerAll (r : Registry α) (entries : List (String × α)) : Registry α :=
  entries.foldl (fun r e => r.register e.1 e.2) r

/-- Lists a plugin, with no tools so far if it is new. -/
def declare (r : Registry α) (plugin : String) : Registry α :=
  { r with categories := insertNew r.categories (normalKey plugin) [] }

/-- Lists a further tool of a plugin. -/
def addToCategory (r : Registry α) (plugin tool : String) : Registry α :=
  let key := normalKey plugin
  { r with categories := r.categories.insert key (((r.categories.get? key).getD []) ++ [tool]) }

end Registry

end ToolScript
