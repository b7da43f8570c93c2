import ToolScript.Text.Pattern
import ToolScript.Text.Size

/-! # Hiding blocks in a stream

    A reply arrives in chunks, and the blocks in it are not to be shown. `Markers` say how a block begins and ends.
    A filter shows what is before a start marker, hides what is up to the end marker, and holds back the end of the
    text where it could be the beginning of a start marker. `hide` says the same of a text that is there as a
    whole. -/

namespace ToolScript.Stream
open Text

/-- The marks around hidden blocks. What opened a block decides what closes it. -/
structure Markers (Open : Type) where
  start : Pattern Open
  stop : Open → Pattern Unit
  /-- Whether a text could go on to be a start marker. -/
  couldStart : List Char → Bool
  /-- The length of the longest start marker in bytes. -/
  maxStart : Nat
  /-- The length of the longest end marker in bytes. -/
  maxStop : Nat

/-- What a filter keeps between two chunks: what opened the block it is in, and text that is neither shown nor
    hidden yet. -/
structure State (Open : Type) where
  opened : Option Open
  buffer : List Char

def State.initial {Open : Type} : State Open := ⟨none, []⟩

/-- The last characters of a text, at most `n` of them. -/
def lastChars (n : Nat) (s : List Char) : List Char :=
  s.drop (s.length - n)

/-- The shortest end of a text that has `n` bytes, or the whole text. -/
def lastBytes (n : Nat) : List Char → List Char
  | [] => []
  | c :: s => if n ≤ utf8Size s then lastBytes n s else c :: s

namespace Markers
variable {Open : Type} (m : Markers Open)

/-- The number of bytes of a text up to the end of its first end marker. -/
def stopEnd? (opened : Open) (s : List Char) : Option Nat :=
  ((m.stop opened).search s).map fun h => utf8Size (h.before ++ h.text)

/-- The longest end of a text that is no longer than a start marker and could begin one. -/
def heldFrom : List Char → List Char
  | [] => []
  | c :: s => if utf8Size (c :: s) ≤ m.maxStart && m.couldStart (c :: s) then c :: s else heldFrom s

/-- The end of a text that is not shown before more text has come. A byte takes part of a character at most, so
    only the last characters need be looked at. -/
def heldBack (s : List Char) : List Char :=
  m.heldFrom (lastChars m.maxStart s)

/-- The end of a hidden text in which an end marker may have begun. -/
def blockTail (s : List Char) : List Char :=
  lastBytes (m.maxStop - 1) (lastChars (m.maxStop - 1) s)

/-- Shows and hides as much of a text as can be told now. -/
def drain (opened : Option Open) (buffer : List Char) : List Char × State Open :=
  match opened with
  | some o =>
    match _found : (m.stop o).search buffer with
    | none => ([], ⟨some o, m.blockTail buffer⟩)
    | some h => drain none h.rest
  | none =>
    match _found : m.start.search buffer with
    | none =>
      let held := m.heldBack buffer
      (buffer.take (buffer.length - held.length), ⟨none, held⟩)
    | some h =>
      let (out, state) := drain (some h.value) (h.text ++ h.rest)
      (h.before ++ out, state)
termination_by (buffer.length, if opened.isSome then 0 else 1)
decreasing_by
  · exact Prod.Lex.left _ _ (Pattern.rest_length_lt (by assumption))
  · have whole := congrArg List.length (Pattern.search_eq_append _found)
    simp only [List.length_append] at whole
    rcases Nat.lt_or_ge (h.text ++ h.rest).length buffer.length with lt | ge
    · exact Prod.Lex.left _ _ lt
    · have : (h.text ++ h.rest).length = buffer.length := by
        simp only [List.length_append] at ge ⊢
        omega
      rw [this]
      exact Prod.Lex.right _ (by simp)

/-- A chunk arrives: what is shown of it, and what is kept. -/
def feed (s : State Open) (chunk : List Char) : List Char × State Open :=
  m.drain s.opened (s.buffer ++ chunk)

/-- The stream ends: a beginning of a marker is shown after all, and an open block is given up. -/
def flush (s : State Open) : List Char × State Open :=
  (if s.opened.isSome then [] else s.buffer, .initial)

/-- What is shown of a whole stream, from a given state. -/
def runFrom (s : State Open) : List (List Char) → List Char
  | [] => (flush s).1
  | chunk :: rest =>
    let (out, s) := m.feed s chunk
    out ++ runFrom s rest

def run (chunks : List (List Char)) : List Char :=
  m.runFrom .initial chunks

/-- A text without its blocks. A block that never ends takes the rest of the text with it. -/
def hide (s : List Char) : List Char :=
  match _found : m.start.search s with
  | none => s
  | some h => h.before ++
    match _found : (m.stop h.value).search h.rest with
    | none => []
    | some h => hide h.rest
termination_by s.length
decreasing_by
  exact Nat.lt_trans (Pattern.rest_length_lt (by assumption)) (Pattern.rest_length_lt (by assumption))

end Markers

end ToolScript.Stream
