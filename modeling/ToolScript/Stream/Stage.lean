import ToolScript.Stream.Filter

/-! # Filters in a row

    A stage is a filter of any kind in the middle of its stream. In a row of stages each is fed with what the one
    before it shows. -/

namespace ToolScript.Stream

structure Stage where
  Open : Type
  markers : Markers Open
  state : State Open

namespace Stage

def ofMarkers {Open : Type} (m : Markers Open) : Stage := ⟨Open, m, .initial⟩

def inBlock (s : Stage) : Bool :=
  s.state.opened.isSome

def feed (s : Stage) (chunk : List Char) : List Char × Stage :=
  let (out, state) := s.markers.feed s.state chunk
  (out, { s with state })

def flush (s : Stage) : List Char × Stage :=
  let (out, state) := Markers.flush s.state
  (out, { s with state })

/-- Feeds a row of stages. -/
def feedAll (chunk : List Char) : List Stage → List Char × List Stage
  | [] => (chunk, [])
  | s :: rest =>
    let (out, s) := s.feed chunk
    let (out, rest) := feedAll out rest
    (out, s :: rest)

/-- Ends the stream of a row of stages: each takes what the one before it still had to show, and is flushed. -/
def flushAll (coming : List Char) : List Stage → List Char × List Stage
  | [] => (coming, [])
  | s :: rest =>
    let (shown, s) := s.feed coming
    let (last, s) := s.flush
    let (out, rest) := flushAll (shown ++ last) rest
    (out, s :: rest)

end Stage

end ToolScript.Stream
