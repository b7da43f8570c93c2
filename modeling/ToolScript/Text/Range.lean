import ToolScript.Text.Size

/-! # Ranges of bytes

    A text in UTF-8 is cut and edited at byte positions. A position inside a character, or behind the end of the text,
    is not one at which it can be cut. -/

namespace ToolScript.Text

/-- The first `n` bytes of a text, and what follows them. -/
def splitAtByte? : Nat → List Char → Option (List Char × List Char)
  | 0, s => some ([], s)
  | _ + 1, [] => none
  | n + 1, c :: s =>
    if c.utf8Size ≤ n + 1 then (splitAtByte? (n + 1 - c.utf8Size) s).map fun r => (c :: r.1, r.2) else none

/-- A text without the bytes from `first` to `last`. -/
def deleteRange? (first last : Nat) (s : List Char) : Option (List Char) :=
  (splitAtByte? last s).bind fun (front, after) =>
    (splitAtByte? first front).map fun (before, _) => before ++ after

end ToolScript.Text
