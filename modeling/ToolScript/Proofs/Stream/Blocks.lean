import ToolScript.Proofs.Markup.Decomposition
import ToolScript.Proofs.Stream.Scripts

/-! # Blocks in a stream

    A block that is found in a text goes up to the closing tag of its own name, and this is what is run. A filter ends
    it at the first end mark of any script. So a block is hidden as a whole where no end mark stands in its body; where
    one does, the filter shows what `hide` leaves of the text after it. -/

namespace ToolScript.Stream
open Text Text.Pattern Markup

/-! ### Blocks with nothing between them -/

section
variable {Open : Type} {m : Markers Open} {S : List Char → Open → Prop} {E : Open → List Char → Unit → Prop}

/-- A text from inside a block with nothing in it to show: after each end mark comes the next start mark at once, or
    the end of the text. -/
inductive Seamless (S : List Char → Open → Prop) (E : Open → List Char → Unit → Prop) : Open → List Char → Prop
  | unclosed {o : Open} {s : List Char} (h : Free (E o) s) : Seamless S E o s
  | last {o : Open} {s body mark : List Char} (stop : First (E o) s body mark () []) : Seamless S E o s
  | next {o o' : Open} {s body mark start rest : List Char} (stop : First (E o) s body mark () (start ++ rest))
      (hstart : S start o') (more : Seamless S E o' rest) : Seamless S E o s

namespace Markers

theorem Lawful.hide_mark (L : m.Lawful S E) {start : List Char} {o : Open} (hstart : S start o) (rest : List Char) :
    m.hide (start ++ rest) = m.hideFrom (some o) rest := by
  have found : m.start.search (start ++ rest) = some ⟨⟨o, start, rest⟩, []⟩ :=
    L.starts.search_eq_some_iff.mpr (.of_mark hstart rest)
  exact hide_of_some found

theorem Lawful.hide_eq_nil (L : m.Lawful S E) {s : List Char} (h : m.hide s = []) :
    s = [] ∨ ∃ start o rest, s = start ++ rest ∧ S start o ∧ m.hideFrom (some o) rest = [] := by
  cases hs : m.start.search s with
  | none =>
    rw [hide_of_none hs] at h
    exact Or.inl h
  | some k =>
    have first := L.starts.search_eq_some_iff.mp hs
    rw [hide_of_some hs] at h
    obtain ⟨hbefore, hrest⟩ := List.append_eq_nil_iff.mp h
    have hwhole := first.whole
    rw [hbefore] at hwhole
    exact Or.inr ⟨k.text, k.value, k.rest, hwhole, first.mark, hrest⟩

theorem Lawful.hideFrom_eq_nil_iff (L : m.Lawful S E) {o : Open} {s : List Char} :
    m.hideFrom (some o) s = [] ↔ Seamless S E o s := by
  constructor
  · intro h
    induction hn : s.length using Nat.strong_induction_on generalizing o s with
    | _ n ih =>
      subst hn
      cases hs : (m.stop o).search s with
      | none => exact .unclosed ((L.stops o).search_eq_none_iff.mp hs)
      | some k =>
        have stop := (L.stops o).search_eq_some_iff.mp hs
        rw [hideFrom_of_some hs] at h
        rcases L.hide_eq_nil h with hnil | ⟨start, o', rest, hrest, hstart, hmore⟩
        · rw [hnil] at stop
          exact .last stop
        · have hlt : rest.length < s.length := by
            have := rest_length_lt hs
            rw [hrest, List.length_append] at this
            omega
          rw [hrest] at stop
          exact .next stop hstart (ih _ hlt hmore rfl)
  · intro h
    induction h with
    | unclosed h => exact hideFrom_of_none ((L.stops _).search_eq_none_iff.mpr h)
    | @last o s body mark stop =>
      have found := (L.stops o).search_eq_some_iff (h := ⟨⟨(), mark, []⟩, body⟩).mpr stop
      rw [hideFrom_of_some found]
      exact hide_of_none (search_nil m.start)
    | @next o o' s body mark start rest stop hstart more ih =>
      have found := (L.stops o).search_eq_some_iff (h := ⟨⟨(), mark, start ++ rest⟩, body⟩).mpr stop
      rw [hideFrom_of_some found, ← ih]
      exact L.hide_mark hstart rest

end Markers
end

/-! ### One block in a stream -/

section
variable {b : Block}

theorem scriptStart_opening (h : Formed b) : ScriptStart b.opening () :=
  Or.inr ⟨b.mark, h.tagMark⟩

theorem scriptStop_closing (h : Formed b) : ScriptStop b.closing () := by
  obtain ⟨digits, hname, -⟩ := h.name
  exact Or.inr (h.closing.tagMark hname)

/-- However a block is cut, a filter opens it with its tag and looks for an end mark after that. -/
theorem run_raw (h : Formed b) {chunks : List (List Char)} (hcut : chunks.flatten = b.raw) :
    scriptMarkers.run chunks = scriptMarkers.hideFrom (some ()) (b.body ++ b.closing) := by
  rw [Markers.run, scriptMarkers_lawful.runFrom_eq scriptMarkers.drained_initial, hcut]
  exact scriptMarkers_lawful.hide_mark (scriptStart_opening h) _

theorem first_closing (h : Formed b) (hfree : ∀ t, ScriptStop t () → ¬t <:+: b.body) :
    First ScriptStop (b.body ++ b.closing) b.body b.closing () [] := by
  have hfirst := first_stop (scriptStop_closing h) hfree []
  rwa [List.append_nil] at hfirst

theorem hideFrom_body {before mark after : List Char} (stop : First ScriptStop b.body before mark () after) :
    scriptMarkers.hideFrom (some ()) (b.body ++ b.closing) = scriptMarkers.hide (after ++ b.closing) := by
  have found := scriptStop_spells.search_eq_some_iff (h := ⟨⟨(), mark, after⟩, before⟩).mpr stop
  have found' := scriptStop_spells.search_append_of_some (scriptMarkers_lawful.stopsApart ()) found b.closing
  exact Markers.hideFrom_of_some (m := scriptMarkers) (o := ()) found'

end

/-- A text that is one block as a whole is hidden, however it is cut, where its body has no end mark of any script in
    it. After an end mark in the body the filter goes on showing, and nothing is left to show only where all the rest
    is hidden again. -/
theorem run_block {text : List Char} {b : Block} (hblocks : blocks text = [b]) (hraw : b.raw = text)
    {chunks : List (List Char)} (hcut : chunks.flatten = text) :
    ((∀ t, ScriptStop t () → ¬t <:+: b.body) → scriptMarkers.run chunks = []) ∧
      (∀ before mark after, First ScriptStop b.body before mark () after →
        scriptMarkers.run chunks = scriptMarkers.hide (after ++ b.closing)) ∧
      (scriptMarkers.run chunks = [] ↔ Seamless ScriptStart (fun _ => ScriptStop) () (b.body ++ b.closing)) := by
  have hformed : Formed b := formed_of_mem_blocks (hblocks ▸ List.mem_singleton_self b)
  rw [run_raw hformed (hcut.trans hraw.symm)]
  refine ⟨fun hfree => ?_, fun before mark after stop => hideFrom_body stop, scriptMarkers_lawful.hideFrom_eq_nil_iff⟩
  exact scriptMarkers_lawful.hideFrom_eq_nil_iff.mpr (.last (first_closing hformed hfree))

/-- A block with a closing tag of another name in a string. -/
def quotingBlock : Block :=
  ⟨⟨"nit".toList⟩, "<nit>".toList, "echo(text=\"</nit-0000>\")".toList, "</nit>".toList⟩

theorem formed_quotingBlock : Formed quotingBlock :=
  ⟨rfl, ⟨"nit".toList, rfl, rfl⟩, none, .plain rfl, rfl⟩

theorem blocks_quotingBlock : blocks quotingBlock.raw = [quotingBlock] :=
  blocks_raw formed_quotingBlock (.of_map_toLower (by decide))

theorem first_quotingBlock :
    First ScriptStop quotingBlock.body "echo(text=\"".toList "</nit-0000>".toList () "\")".toList := by
  refine scriptStop_spells.search_eq_some_iff (h := ⟨⟨(), _, _⟩, _⟩).mp ?_
  rfl

theorem run_block_quotingBlock : blocks quotingBlock.raw = [quotingBlock] ∧
    scriptMarkers.run ["<ni".toList, quotingBlock.raw.drop 3] = scriptMarkers.hide "\")</nit>".toList :=
  ⟨blocks_quotingBlock, (run_block blocks_quotingBlock rfl (by decide)).2.1 _ _ _ first_quotingBlock⟩

/-- The end of this block is shown although it is run as a whole. -/
theorem quotingBlock_shown : blocks quotingBlock.raw = [quotingBlock] ∧
    scriptMarkers.run [quotingBlock.raw] = "\")</nit>".toList := by
  refine ⟨blocks_quotingBlock, ?_⟩
  rw [run_raw formed_quotingBlock (by simp), hideFrom_body first_quotingBlock]
  exact Markers.hide_of_none rfl

end ToolScript.Stream
