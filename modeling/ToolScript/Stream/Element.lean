import ToolScript.Stream.Filter
import ToolScript.Text.Blank

/-! # Hiding elements

    Elements of given names are hidden, from the opening tag to the closing tag of the same name, in any ASCII case.
    Elements of other names inside are part of the hidden text. -/

namespace ToolScript.Stream
open Text

/-- The names of the elements hidden by default. -/
def defaultElements : List String := ["PEROCUE", "CHARACTER_STATUS"]

/-- The names as they are looked for: without blanks around them, in upper case, and none that is blank. -/
def elementNames (names : List String) : List (List Char) :=
  (names.map fun name => (trim name.toList).map Char.toUpper).filter (!·.isEmpty)

/-- A character whose upper case is the given one. -/
def sameUpper (l c : Char) : Bool :=
  l == c.toUpper

def openingOf (name : List Char) : List Char :=
  '<' :: (name ++ ['>'])

def closingOf (name : List Char) : List Char :=
  '<' :: '/' :: (name ++ ['>'])

/-- The markers of elements with the given upper-case names. What closes a block is its closing tag. -/
def elementMarkers (names : List (List Char)) : Markers (List Char) where
  start := .oneOf (names.map fun name => (Pattern.letters sameUpper (openingOf name)).map fun _ => closingOf name)
  stop closing := .letters sameUpper closing
  couldStart s := names.any fun name => (s.map Char.toUpper).isPrefixOf (openingOf name)
  maxStart := ((names.map fun name => utf8Size name + 2).max?).getD 0
  maxStop := ((names.map fun name => utf8Size name + 3).max?).getD 0

/-- The number of bytes of a text up to the end of a closing tag. The empty tag, which closes no element, ends where
    the text begins. -/
def closingEnd? (closing s : List Char) : Option Nat :=
  if closing.isEmpty then some 0 else (elementMarkers []).stopEnd? closing s

end ToolScript.Stream
