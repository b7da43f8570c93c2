import ToolScript.Data.Dict

/-! # The gate before tools

    Whole categories of plugins and single plugins can be switched off, and in lightweight mode only the plugins of
    an allowlist are available. A switch that was never set is on. -/

namespace ToolScript.Security

/-- A set of names, listed in order. -/
abbrev Names := Dict Unit

def Names.ofList (names : List String) : Names :=
  Dict.ofList (names.map fun name => (name, ()))

structure Gate where
  categories : Dict Bool
  plugins : Dict Bool
  lightweight : Bool
  allowlist : Names

def defaultAllowlist : List String := ["ScreenVision", "CharacterOps", "MemoryOps"]

/-- Why a plugin is not available. -/
inductive Denial where
  | lightweight (plugin : String) (allowed : List String)
  | category (name : String)
  | plugin (name : String)
  deriving DecidableEq

def Denial.message : Denial → String
  | .lightweight name allowed =>
    "plugin `" ++ name ++ "` is restricted in lightweight mode; available: " ++ String.intercalate ", " allowed
  | .category name => "category `" ++ name ++ "` is disabled"
  | .plugin name => "plugin `" ++ name ++ "` is disabled"

namespace Gate

def new : Gate := ⟨.empty, .empty, false, .ofList defaultAllowlist⟩

/-! ### Switches -/

def setCategory (g : Gate) (name : String) (on : Bool) : Gate :=
  { g with categories := g.categories.insert name on }

def setPlugin (g : Gate) (name : String) (on : Bool) : Gate :=
  { g with plugins := g.plugins.insert name on }

def setLightweight (g : Gate) (on : Bool) : Gate :=
  { g with lightweight := on }

def setAllowlist (g : Gate) (plugins : List String) : Gate :=
  { g with allowlist := .ofList plugins }

/-! ### Decisions -/

def categoryOn (g : Gate) (name : String) : Bool :=
  (g.categories.get? name).getD true

def pluginOn (g : Gate) (name : String) : Bool :=
  (g.plugins.get? name).getD true

/-- Why a plugin of a category is not available; of several reasons the mode comes first, then the category. -/
def denial? (g : Gate) (plugin category : String) : Option Denial :=
  if g.lightweight && !g.allowlist.contains plugin then some (.lightweight plugin g.allowlist.keys)
  else if !g.categoryOn category then some (.category category)
  else if !g.pluginOn plugin then some (.plugin plugin)
  else none

/-- Lets a tool of a plugin through, or refuses it with the reason. -/
def check (g : Gate) (plugin category : String) : Except Denial Unit :=
  match g.denial? plugin category with
  | some denial => .error denial
  | none => .ok ()

def permits (g : Gate) (plugin category : String) : Bool :=
  (g.denial? plugin category).isNone

end Gate

end ToolScript.Security
