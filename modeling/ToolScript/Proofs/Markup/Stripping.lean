import ToolScript.Proofs.Stream.Replies
import ToolScript.Proofs.Text.Removal

/-! # What stripping leaves

    Stripping goes over a text once for the scripts of the first generation and once for the blocks in tags. It leaves
    no script whose two marks the text has in one piece each, but where a script was taken out its neighbours may come
    together to the mark of another. A stripped text is stripped again to itself exactly when it has no complete
    script. -/

namespace ToolScript.Markup
open Text Text.Pattern ToolScript.Stream

/-- What is left of a text without its scripts, with the blanks at its ends. -/
def bare (text : List Char) : List Char :=
  block.remove (legacyBlock.remove text)

/-- The part `t` of a stripped text, behind `a`, stands in the text in one piece: it lies between two of the blocks
    that are taken out, and before that between two scripts of the first generation. -/
def Kept (text a t : List Char) : Prop :=
  ∃ b c, block.Stays (legacyBlock.remove text) b ((bare text).takeWhile isBlank ++ a) t ∧ legacyBlock.Stays text c b t

/-- A text without a complete script. -/
structure Clear (s : List Char) : Prop where
  blocks : blocks s = []
  legacy : ∀ a body r, s ≠ a ++ (legacyStart ++ (body ++ (legacyEnd ++ r)))

/-! ### Scripts of the first generation -/

theorem legacyBlock_match?_start_iff {after : List Char} :
    legacyBlock.match? (legacyStart ++ after) = none ↔ ¬legacyEnd <:+: after := by
  simp only [legacyBlock, enclosed, legacyStart_spells.match?_append_of_mark (v := ()) rfl after, Option.bind_some,
    Option.map_eq_none_iff, legacyEnd_spells.search_eq_none_iff]
  constructor
  · rintro hfree ⟨a, r, h⟩
    exact hfree a legacyEnd () r (by rw [← h, List.append_assoc]) rfl
  · rintro h a _ _ r hs rfl
    exact h ⟨a, r, by rw [hs, List.append_assoc]⟩

theorem legacyBlock_search_eq_none_iff {s : List Char} :
    legacyBlock.search s = none ↔ ∀ a body r, s ≠ a ++ (legacyStart ++ (body ++ (legacyEnd ++ r))) := by
  rw [search_eq_none_iff]
  constructor
  · rintro hn a body r rfl
    exact legacyBlock_match?_start_iff.mp (hn _ ⟨a, rfl⟩) ⟨body, r, List.append_assoc _ _ _⟩
  · rintro h b ⟨a, rfl⟩
    by_cases hstart : legacyStart <+: b
    · obtain ⟨after, rfl⟩ := hstart
      rw [legacyBlock_match?_start_iff]
      rintro ⟨body, r, rfl⟩
      exact h a body r (by simp)
    · exact legacyBlock_match?_eq_none hstart

/-! ### Complete scripts -/

theorem blocks_eq_nil_iff {s : List Char} : blocks s = [] ↔ block.search s = none := by
  rw [blocks]
  cases found : block.search s with
  | none => simp [cut_of_none found]
  | some h => simp [cut_of_some found]

theorem clear_iff {s : List Char} : Clear s ↔ block.search s = none ∧ legacyBlock.search s = none := by
  rw [← blocks_eq_nil_iff, legacyBlock_search_eq_none_iff]
  exact ⟨fun h => ⟨h.blocks, h.legacy⟩, fun h => ⟨h.1, h.2⟩⟩

/-- A text is clear where no mark that ends a script follows one that begins it. -/
theorem clear_of_not_encloses {s : List Char} (h : ∀ a opening body closing r,
    s = a ++ (opening ++ (body ++ (closing ++ r))) → ¬Encloses opening closing) : Clear s := by
  constructor
  · rw [blocks_eq_nil_iff]
    cases found : block.search s with
    | none => rfl
    | some k =>
      obtain ⟨-, hraw, hformed, -⟩ := block_match?_iff.mp (match?_of_search found)
      have hs := search_eq_append found
      rw [hraw, Enclosed.raw, List.append_assoc, List.append_assoc] at hs
      exact absurd (.tags hformed.tagMark hformed.closing) (h _ _ _ _ _ hs)
  · rintro a body r rfl
    exact h _ _ _ _ _ rfl .legacy

/-- Stripping keeps exactly the texts without complete scripts and without blanks at their ends. -/
theorem strip_eq_self_iff {s : List Char} : strip s = s ↔ Clear s ∧ trim s = s := by
  rw [clear_iff]
  constructor
  · intro h
    have hlen := length_trim_le (block.remove (legacyBlock.remove s))
    rw [← strip, h] at hlen
    have hblocks := length_remove_le block (legacyBlock.remove s)
    have hlegacy : legacyBlock.search s = none := search_eq_none_of_length_le (hlen.trans hblocks)
    rw [remove_of_none hlegacy] at hlen
    have hnone : block.search s = none := search_eq_none_of_length_le hlen
    rw [strip, remove_of_none hlegacy, remove_of_none hnone] at h
    exact ⟨⟨hnone, hlegacy⟩, h⟩
  · rintro ⟨⟨hnone, hlegacy⟩, htrim⟩
    rw [strip, remove_of_none hlegacy, remove_of_none hnone, htrim]

/-! ### Stripped texts -/

theorem opening_ne_nil {opening closing : List Char} (h : Encloses opening closing) : opening ≠ [] := by
  cases h with
  | legacy => decide
  | tags hopen hclose => simp [hopen.1]

/-- Of two marks that a text has in one piece each the second does not end a script that the first begins. -/
theorem Kept.not_encloses {text a opening body closing : List Char} (h : Kept text a opening)
    (h' : Kept text (a ++ (opening ++ body)) closing) : ¬Encloses opening closing := by
  intro marks
  obtain ⟨b, c, hblock, hlegacy⟩ := h
  obtain ⟨b', c', hblock', hlegacy'⟩ := h'
  obtain ⟨mid, r, rfl, hnone⟩ := hblock.exists_after hblock' (opening_ne_nil marks) (by simp)
  cases marks with
  | legacy =>
    obtain ⟨mid', r', -, hnone'⟩ := hlegacy.exists_after hlegacy' (by decide) (by simp)
    exact legacyBlock_match?_start_iff.mp hnone' ⟨mid', r', List.append_assoc _ _ _⟩
  | tags hopen hclose =>
    exact (block_match?_tag_iff hopen).mp hnone _ hclose ⟨mid, r, List.append_assoc _ _ _⟩

/-- Of the two marks of a complete script in a stripped text at least one does not stand in the text in one piece. So a
    stripped text whose marks all do has no complete script; and those without one, and no others, are stripped to
    themselves. -/
theorem strip_leaves_no_kept_script (text : List Char) :
    (∀ a opening body closing r, strip text = a ++ (opening ++ (body ++ (closing ++ r))) → Encloses opening closing →
        ¬(Kept text a opening ∧ Kept text (a ++ (opening ++ body)) closing)) ∧
      ((∀ a mark r, strip text = a ++ (mark ++ r) → ScriptStart mark () ∨ ScriptStop mark () → Kept text a mark) →
        Clear (strip text)) ∧
      (strip (strip text) = strip text ↔ Clear (strip text)) := by
  refine ⟨fun a opening body closing r _ marks h => h.1.not_encloses h.2 marks, fun hkept => ?_, ?_⟩
  · refine clear_of_not_encloses fun a opening body closing r hs marks => ?_
    have hopening := hkept a opening _ hs (Or.inl marks.start)
    have hclosing := hkept (a ++ (opening ++ body)) closing r (by rw [hs]; simp) (Or.inr marks.stop)
    exact hopening.not_encloses hclosing marks
  · rw [strip_eq_self_iff]
    exact and_iff_left (trim_trim _)

/-- A block inside the opening tag of another. -/
def splicedReply : List Char := "<n<nit>x</nit>it>a()</nit>".toList

theorem strip_splicedReply : strip splicedReply = "<nit>a()</nit>".toList := by
  have hlegacy : legacyBlock.search splicedReply = none := rfl
  have found : block.search splicedReply =
      some ⟨⟨⟨⟨"nit".toList⟩, "<nit>".toList, "x".toList, "</nit>".toList⟩, "<nit>x</nit>".toList, "it>a()</nit>".toList⟩,
        "<n".toList⟩ := rfl
  have hrest : block.search "it>a()</nit>".toList = none := rfl
  rw [strip, remove_of_none hlegacy, remove_of_some found, remove_of_none hrest]
  rfl

/-- Of this reply stripping leaves a block. -/
theorem splicedReply_left : blocks (strip splicedReply) ≠ [] ∧ strip (strip splicedReply) ≠ strip splicedReply := by
  have found : block.search (strip splicedReply) ≠ none := by
    rw [strip_splicedReply]
    exact fun h => by cases h
  have hblocks : blocks (strip splicedReply) ≠ [] := fun h => found (blocks_eq_nil_iff.mp h)
  exact ⟨hblocks, fun h => hblocks (strip_eq_self_iff.mp h).1.blocks⟩

end ToolScript.Markup
