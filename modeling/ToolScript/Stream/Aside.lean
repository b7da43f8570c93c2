import ToolScript.Stream.Filter

/-! # Hiding asides

    An aside is a bracket of one of three kinds that opens with the word for thinking or for a monologue; it ends
    with the first closing bracket of its kind. The words are compared by the simple case folding of Unicode, in
    which the sign for kelvin is a k. -/

namespace ToolScript.Stream
open Text

/-- The brackets that can open an aside, with the ones that close it. -/
def asideBrackets : List (Char × Char) := [('【', '】'), ('[', ']'), ('(', ')')]

def asideWords : List (List Char) := ["thinking".toList, "monologue".toList]

/-- A character that is a given lower-case letter by simple case folding. -/
def sameFolded (l c : Char) : Bool :=
  l == c.toLower || (l == 'k' && c == '\u212a')

def asideStart : Pattern Char :=
  .oneOf (asideBrackets.flatMap fun bracket => asideWords.map fun word =>
    (Pattern.letters sameFolded (bracket.1 :: word)).map fun _ => bracket.2)

/-- Whether a text is a bracket and the beginning of a word in any ASCII case. -/
def couldBeAside : List Char → Bool
  | [] => false
  | c :: s => asideBrackets.any (·.1 == c) && asideWords.any fun word => (s.map Char.toLower).isPrefixOf word

/-- The markers of asides. What closes a block is its closing bracket. -/
def asideMarkers : Markers Char where
  start := asideStart
  stop closing := .exactly [closing]
  couldStart := couldBeAside
  maxStart := 12
  maxStop := 1

end ToolScript.Stream
