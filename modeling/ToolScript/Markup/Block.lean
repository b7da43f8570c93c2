import ToolScript.Markup.Tag
import ToolScript.Text.Blank
import ToolScript.Text.Range

/-! # Script blocks in replies

    A block goes from an opening tag to the first closing tag of the same name; an opening tag that is never closed
    is plain text. Blocks are found from left to right and do not overlap. `strip` takes them out of a finished
    reply, together with the scripts of the first generation. -/

namespace ToolScript.Markup
open Text

/-- A block: its tag, and the text between its tags. -/
abbrev Block := Enclosed Tag

namespace Block

/-- The digits of the block's tag in upper case. -/
def turn? (b : Block) : Option String :=
  b.mark.digits?.map fun ds => String.ofList (ds.map Char.toUpper)

/-- Whether the block has the tag without digits. -/
def isUnnamed (b : Block) : Bool :=
  b.mark.digits?.isNone

end Block

/-- The pattern of a whole block. -/
def block : Pattern Block :=
  .enclosed openTag Tag.closing

/-- The blocks of a text in order. -/
def blocks (text : List Char) : List Block :=
  (block.cut text).hits.map (·.2.value)

/-- A block with the bytes at which it begins and ends. -/
structure Placed where
  block : Block
  first : Nat
  last : Nat

/-- Blocks with gaps before them, placed after `n` bytes. -/
def placedFrom (n : Nat) : List (List Char × Match Block) → List Placed
  | [] => []
  | (gap, m) :: rest =>
    let first := n + utf8Size gap
    let last := first + utf8Size m.text
    ⟨m.value, first, last⟩ :: placedFrom last rest

/-- The blocks of a text with their places. -/
def placed (text : List Char) : List Placed :=
  placedFrom 0 (block.cut text).hits

/-! ### Stripping -/

/-- The pattern of a script of the first generation. -/
def legacyBlock : Pattern (Enclosed Unit) :=
  .enclosed (.exactly legacyStart) fun _ => .exactly legacyEnd

/-- A reply without its scripts, and without blanks at its ends. -/
def strip (text : List Char) : List Char :=
  trim (block.remove (legacyBlock.remove text))

/-- A text without the ranges of some blocks, of which the last is deleted first. -/
def deleteAll? (ps : List Placed) (text : List Char) : Option (List Char) :=
  ps.foldr (fun p left => left.bind (deleteRange? p.first p.last)) (some text)

/-- `strip` by deletions in place: the blocks are placed once, before any of them is deleted. -/
def stripInPlace? (text : List Char) : Option (List Char) :=
  let left := legacyBlock.remove text
  (deleteAll? (placed left) left).map trim

end ToolScript.Markup
