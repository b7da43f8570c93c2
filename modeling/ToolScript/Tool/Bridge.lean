import ToolScript.Text.Key

/-! # Tools of one dispatch

    A dispatch may bring tools of its own, each under a key. A tool that comes over a bridge has two keys: the normal
    form of its name, and the same with the mark of bridged tools in front. -/

namespace ToolScript

/-- Tools with their keys, in the order in which they are looked through. -/
abbrev ExtraTools (α : Type) := List (String × α)

/-- The two keys of a bridged tool. -/
def bridgeKeys (name : String) : List String :=
  [Text.normalKey ("mcp_" ++ name), Text.normalKey name]

def bridged {α : Type} (name : String) (a : α) : ExtraTools α :=
  (bridgeKeys name).map fun key => (key, a)

namespace ExtraTools

/-- The tool under exactly a key, else the first whose key has it as its normal form. -/
def find? {α : Type} (tools : ExtraTools α) (key : String) : Option α :=
  ((List.find? (fun e => e.1 == key) tools).or (List.find? (fun e => Text.normalKey e.1 == key) tools)).map (·.2)

end ExtraTools

end ToolScript
