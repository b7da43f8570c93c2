import ToolScript.Text.Pattern
import ToolScript.Text.Hex

/-! # Tags of script blocks

    A script stands between an opening and a closing tag. The name of a tag is `nit`, or `nit-` and four hexadecimal
    digits, in any case. -/

namespace ToolScript.Markup
open Text

/-- A tag by its name as written. -/
structure Tag where
  name : List Char
  deriving DecidableEq

namespace Tag

/-- The digits after the hyphen, if the name has them. -/
def digits? (t : Tag) : Option (List Char) :=
  match t.name.drop 4 with
  | [] => none
  | digits => some digits

/-- The closing tag of the same name. -/
def closing (t : Tag) : Pattern Unit :=
  .anyCase ('<' :: '/' :: (t.name ++ ['>']))

end Tag

/-- The pattern of a tag that begins with `bracket` and whose name goes on with characters of the given classes. -/
def tagPattern (bracket : List Char) (classes : List (Char → Bool)) : Pattern Tag :=
  (Pattern.classes ((bracket ++ ['n', 'i', 't']).map sameLetter ++ classes ++ [(· == '>')])).map fun text =>
    ⟨(text.drop bracket.length).dropLast⟩

/-- A hyphen and four hexadecimal digits. -/
def digitClasses : List (Char → Bool) :=
  [(· == '-'), isHexDigit, isHexDigit, isHexDigit, isHexDigit]

def anyTag (bracket : List Char) : Pattern Tag :=
  (tagPattern bracket []).or (tagPattern bracket digitClasses)

def openTag : Pattern Tag :=
  anyTag ['<']

def closeTag : Pattern Tag :=
  anyTag ['<', '/']

/-! ### Marks of the first generation -/

/-- What opened a script before there were tags. -/
def legacyStart : List Char := "[[[NIT_CALL]]]".toList

def legacyEnd : List Char := "[[[NIT_END]]]".toList

end ToolScript.Markup
