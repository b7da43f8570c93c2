import ToolScript.Text.Lower

/-! # Normal forms of names

    Tools, plugins and parameters are looked up by the normal form of their names: underscores and hyphens are
    left out and the rest is in lower case. A name written with a path is reduced to its last component. -/

namespace ToolScript.Text

/-- The separators of words that a normal form leaves out. -/
def isJoiner (c : Char) : Bool :=
  c == '_' || c == '-'

def normalChars (s : List Char) : List Char :=
  (s.filter fun c => !isJoiner c).flatMap lower

/-- The normal form of a name. -/
def normalKey (name : String) : String :=
  String.ofList (normalChars name.toList)

theorem normalChars_append (s t : List Char) : normalChars (s ++ t) = normalChars s ++ normalChars t := by
  simp [normalChars]

theorem normalKey_append (a b : String) : normalKey (a ++ b) = normalKey a ++ normalKey b := by
  simp [normalKey, normalChars_append]

/-! ### Paths -/

def isSeparator (c : Char) : Bool :=
  c == '/' || c == '\\'

/-- The last component of a name with path separators, separators at its end aside; `none` for a name without
    separators. -/
def lastComponent? (name : String) : Option String :=
  let s := name.toList
  if s.any isSeparator then
    some (String.ofList ((s.reverse.dropWhile isSeparator).takeWhile (fun c => !isSeparator c)).reverse)
  else none

/-- The name that a call means: its last path component, or the name itself. -/
def pathRepaired (name : String) : String :=
  (lastComponent? name).getD name

end ToolScript.Text
