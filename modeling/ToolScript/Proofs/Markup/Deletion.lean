import ToolScript.Proofs.Markup.Stripping

/-! # Deleting blocks in place

    Stripping deletes the blocks of a text in place, the last one first, by places that were taken before any of them
    was deleted. Every range is one of whole characters when it is deleted, and what is left are the gaps of the text
    around the blocks (`Gaps`): its characters outside the ranges, in their order. -/

namespace ToolScript.Text

theorem splitAtByte?_append (s t : List Char) : splitAtByte? (utf8Size s) (s ++ t) = some (s, t) := by
  induction s with
  | nil => cases t <;> rfl
  | cons c s ih =>
    have hpos := c.utf8Size_pos
    obtain ⟨n, hn⟩ : ∃ n, c.utf8Size + utf8Size s = n + 1 := ⟨c.utf8Size + utf8Size s - 1, by omega⟩
    have hrest : n + 1 - c.utf8Size = utf8Size s := by omega
    rw [utf8Size_cons, hn, List.cons_append, splitAtByte?, if_pos (by omega), hrest, ih]
    rfl

theorem deleteRange?_append (front part rest : List Char) :
    deleteRange? (utf8Size front) (utf8Size (front ++ part)) (front ++ (part ++ rest)) = some (front ++ rest) := by
  rw [deleteRange?, ← List.append_assoc, splitAtByte?_append]
  simp only [Option.bind_some, splitAtByte?_append, Option.map_some]

theorem utf8Size_le_of_prefix {s t : List Char} (h : s <+: t) : utf8Size s ≤ utf8Size t := by
  obtain ⟨x, rfl⟩ := h
  rw [utf8Size_append]
  omega

/-! ### Characters with their places -/

/-- The characters of a text that begins at byte `n`, each with the byte at which it begins. -/
def offsets (n : Nat) : List Char → List (Nat × Char)
  | [] => []
  | c :: s => (n, c) :: offsets (n + c.utf8Size) s

theorem offsets_append (n : Nat) (s t : List Char) : offsets n (s ++ t) = offsets n s ++ offsets (n + utf8Size s) t := by
  induction s generalizing n with
  | nil => rfl
  | cons c s ih => rw [List.cons_append, offsets, offsets, ih, utf8Size_cons, Nat.add_assoc, List.cons_append]

@[simp] theorem map_snd_offsets (n : Nat) (s : List Char) : (offsets n s).map (·.2) = s := by
  induction s generalizing n with
  | nil => rfl
  | cons c s ih => rw [offsets, List.map_cons, ih]

theorem mem_offsets {n : Nat} {s : List Char} {x : Nat × Char} (h : x ∈ offsets n s) :
    n ≤ x.1 ∧ x.1 < n + utf8Size s := by
  induction s generalizing n with
  | nil => cases h
  | cons c s ih =>
    have hpos := c.utf8Size_pos
    rw [utf8Size_cons]
    rcases List.mem_cons.mp h with rfl | h
    · exact ⟨Nat.le_refl _, by omega⟩
    · have := ih h
      omega

end ToolScript.Text

namespace ToolScript.Markup
open Text Text.Pattern ToolScript.Stream

/-! ### Gaps -/

/-- The gaps of a text that begins at byte `n`, between the ranges of some blocks and around them. -/
inductive Gaps : (n : Nat) → List Char → List Placed → List (List Char) → Prop
  | last {n : Nat} {s : List Char} : Gaps n s [] [s]
  | cons {n : Nat} {gap part rest : List Char} {p : Placed} {ps : List Placed} {gaps : List (List Char)}
      (hfirst : p.first = n + utf8Size gap) (hlast : p.last = p.first + utf8Size part) (h : Gaps p.last rest ps gaps) :
      Gaps n (gap ++ (part ++ rest)) (p :: ps) (gap :: gaps)

/-- Whether no range of a block has the byte in it. -/
def isOutside (ps : List Placed) (n : Nat) : Bool :=
  ps.all fun p => decide (n < p.first) || decide (p.last ≤ n)

/-- The characters of a text that begins at byte `n` which are outside the ranges of some blocks, in order. -/
def outside (ps : List Placed) (n : Nat) (s : List Char) : List Char :=
  ((offsets n s).filter fun x => isOutside ps x.1).map (·.2)

section
variable {n : Nat} {s t : List Char} {p : Placed} {ps : List Placed} {gaps : List (List Char)}

theorem outside_append : outside ps n (s ++ t) = outside ps n s ++ outside ps (n + utf8Size s) t := by
  simp [outside, offsets_append]

theorem outside_eq_self (h : ∀ x ∈ offsets n s, isOutside ps x.1 = true) : outside ps n s = s := by
  rw [outside, List.filter_eq_self.mpr h, map_snd_offsets]

theorem outside_eq_nil (h : ∀ x ∈ offsets n s, isOutside ps x.1 = false) : outside ps n s = [] := by
  rw [outside, List.filter_eq_nil_iff.mpr fun x hx => by simp [h x hx], List.map_nil]

theorem outside_congr {qs : List Placed} (h : ∀ x ∈ offsets n s, isOutside ps x.1 = isOutside qs x.1) :
    outside ps n s = outside qs n s := by
  rw [outside, outside, List.filter_congr h]

theorem isOutside_cons : isOutside (p :: ps) n = ((decide (n < p.first) || decide (p.last ≤ n)) && isOutside ps n) := rfl

theorem Gaps.le_first (h : Gaps n s ps gaps) : ∀ p ∈ ps, n ≤ p.first := by
  induction h with
  | last => simp
  | cons hfirst hlast h ih =>
    intro q hq
    rcases List.mem_cons.mp hq with rfl | hq
    · omega
    · have := ih q hq
      omega

/-- The text in the gaps is the text outside the ranges. -/
theorem Gaps.outside_eq (h : Gaps n s ps gaps) : outside ps n s = gaps.flatten := by
  induction h with
  | last =>
    rw [outside_eq_self fun _ _ => rfl]
    simp
  | @cons n gap part rest p ps gaps hfirst hlast h ih =>
    have hlater := h.le_first
    have hgap : outside (p :: ps) n gap = gap := outside_eq_self fun x hx => by
      have hx := (mem_offsets hx).2
      refine List.all_eq_true.mpr fun q hq => ?_
      have hq : x.1 < q.first := by
        rcases List.mem_cons.mp hq with rfl | hq
        · omega
        · have := hlater q hq
          omega
      simp [hq]
    have hpart : outside (p :: ps) (n + utf8Size gap) part = [] := outside_eq_nil fun x hx => by
      have hx := mem_offsets hx
      have hinside : ¬x.1 < p.first ∧ ¬p.last ≤ x.1 := by omega
      simp [isOutside_cons, hinside]
    have hrest : outside (p :: ps) p.last rest = outside ps p.last rest := outside_congr fun x hx => by
      simp [isOutside_cons, (mem_offsets hx).1]
    rw [outside_append, outside_append, hgap, hpart, ← hfirst, ← hlast, hrest, ih]
    simp

/-- The ranges can be deleted one after the other, the last of them first, and that leaves the text in the gaps. -/
theorem Gaps.deleteAll?_eq {front : List Char} (h : Gaps (utf8Size front) s ps gaps) :
    deleteAll? ps (front ++ s) = some (front ++ gaps.flatten) := by
  generalize hn : utf8Size front = n at h
  induction h generalizing front with
  | last => simp [deleteAll?]
  | @cons n gap part rest p ps gaps hfirst hlast h ih =>
    have hlater : deleteAll? ps ((front ++ (gap ++ part)) ++ rest) = _ := ih (by simp only [utf8Size_append]; omega)
    have hp : p.first = utf8Size (front ++ gap) ∧ p.last = utf8Size (front ++ gap ++ part) := by
      simp only [utf8Size_append]
      omega
    have hdelete := deleteRange?_append (front ++ gap) part gaps.flatten
    simp only [List.append_assoc] at hlater hdelete hp
    rw [deleteAll?, List.foldr_cons, ← deleteAll?, hlater, Option.bind_some, hp.1, hp.2, hdelete]
    simp

/-- The blocks of a text leave gaps between them, which are what is left when they are removed. -/
theorem exists_gaps_placedFrom (n : Nat) (s : List Char) :
    ∃ gaps, Gaps n s (placedFrom n (block.cut s).hits) gaps ∧ block.remove s = gaps.flatten := by
  induction hn : s.length using Nat.strong_induction_on generalizing n s with
  | _ k ih =>
    cases found : block.search s with
    | none =>
      rw [cut_of_none found, remove_of_none found]
      exact ⟨[s], .last, by simp⟩
    | some h =>
      obtain ⟨gaps, hgaps, hrest⟩ := ih _ (hn ▸ rest_length_lt found) (n + utf8Size h.before + utf8Size h.text) h.rest rfl
      have hcons : Gaps n (h.before ++ (h.text ++ h.rest)) (placedHit n h :: _) (h.before :: gaps) := .cons rfl rfl hgaps
      rw [← search_eq_append found] at hcons
      rw [cut_of_some found, remove_of_some found, hrest]
      exact ⟨h.before :: gaps, hcons, rfl⟩

end

/-! ### Scripts of the first generation -/

/-- What is left of a text without its scripts of the first generation: from left to right, each goes from the first
    mark that begins one to the first behind that which ends it. -/
inductive Cleared : List Char → List Char → Prop
  | none {s : List Char} (h : ∀ a body r, s ≠ a ++ (legacyStart ++ (body ++ (legacyEnd ++ r)))) : Cleared s s
  | script {s before after body rest left : List Char}
      (hstart : First (fun t (_ : Unit) => t = legacyStart) s before legacyStart () after)
      (hend : First (fun t (_ : Unit) => t = legacyEnd) after body legacyEnd () rest) (h : Cleared rest left) :
      Cleared s (before ++ left)

section
variable {s before after body rest left : List Char}

theorem exists_first_of_legacyBlock_search {h : Hit (Enclosed Unit)} (found : legacyBlock.search s = some h) :
    ∃ after body, First (fun t (_ : Unit) => t = legacyStart) s h.before legacyStart () after ∧
      First (fun t (_ : Unit) => t = legacyEnd) after body legacyEnd () h.rest := by
  have hm := match?_of_search found
  simp only [legacyBlock, enclosed, Option.bind_eq_some_iff, Option.map_eq_some_iff] at hm
  obtain ⟨m, hm, k, closed, hk⟩ := hm
  obtain ⟨hwhole, hmark⟩ := (legacyStart_spells _ _).mp hm
  have hend := legacyEnd_spells.search_eq_some_iff.mp closed
  have hrest : k.rest = h.rest := congrArg Match.rest hk
  have hs := search_eq_append found
  rw [hwhole, hmark] at hs
  rw [hend.mark, hrest] at hend
  refine ⟨m.rest, k.before, ⟨hs, rfl, fun a t w r hs' ht => ?_⟩, hend⟩
  subst ht
  -- A mark that begins earlier would begin an earlier script: the end mark of this one follows it too.
  refine Nat.le_of_not_lt fun hlt => ?_
  have hlen := congrArg List.length (hs'.symm.trans hs)
  simp only [List.length_append] at hlen
  have hnone := match?_before_search found ⟨a, hs'.symm⟩ (by
    rw [hwhole, hmark]
    simp only [List.length_append]
    omega)
  have hrests : m.rest <:+ s ∧ r <:+ s :=
    ⟨⟨h.before ++ legacyStart, by rw [hs, List.append_assoc]⟩, ⟨a ++ legacyStart, by rw [hs', List.append_assoc]⟩⟩
  have hsuffix : m.rest <:+ r := List.suffix_of_suffix_length_le hrests.1 hrests.2 (by omega)
  have hfollows : legacyEnd <:+: m.rest := ⟨k.before, h.rest, by rw [List.append_assoc]; exact hend.whole.symm⟩
  exact legacyBlock_match?_start_iff.mp hnone (hfollows.trans hsuffix.isInfix)

theorem Cleared.eq_remove (h : Cleared s left) : left = legacyBlock.remove s := by
  induction h with
  | none h => rw [remove_of_none (legacyBlock_search_eq_none_iff.mpr h)]
  | script hstart hend h ih =>
    obtain ⟨k, found, rfl, rfl⟩ := legacyBlock_search_of_first hstart hend
    rw [remove_of_some found, ih]

theorem cleared_remove (s : List Char) : Cleared s (legacyBlock.remove s) := by
  induction hn : s.length using Nat.strong_induction_on generalizing s with
  | _ n ih =>
    cases found : legacyBlock.search s with
    | none =>
      rw [remove_of_none found]
      exact .none (legacyBlock_search_eq_none_iff.mp found)
    | some h =>
      obtain ⟨after, body, hstart, hend⟩ := exists_first_of_legacyBlock_search found
      rw [remove_of_some found]
      exact .script hstart hend (ih _ (hn ▸ rest_length_lt found) h.rest rfl)

theorem First.append_right {mark : List Char} (hne : mark ≠ [])
    (h : First (fun t (_ : Unit) => t = mark) s before mark () rest) (u : List Char) :
    First (fun t (_ : Unit) => t = mark) (s ++ u) before mark () (rest ++ u) := by
  have hspells : (Pattern.exactly mark).Spells fun t _ => t = mark := exactly_spells hne
  have hapart : Apart fun t (_ : Unit) => t = mark := by
    rintro t _ t' _ a b rfl rfl heq
    have := congrArg List.length heq
    simp only [List.length_append] at this
    exact List.length_eq_zero_iff.mp (by omega)
  have found := hspells.search_eq_some_iff (h := ⟨⟨(), mark, rest⟩, before⟩).mpr h
  exact hspells.search_eq_some_iff.mp (hspells.search_append_of_some hapart found u)

theorem end_unreached_start : Unreached (fun t (_ : Unit) => t = legacyEnd) legacyStart := by
  have hends : ∀ y ∈ legacyEnd.tail.tails, y ≠ [] → ¬y <+: legacyStart ∧ ¬legacyStart <+: y := by decide
  rintro x y - hxy hx hy
  obtain ⟨c, x, rfl⟩ := List.exists_cons_of_ne_nil hx
  exact hends y ((List.mem_tails _ _).mpr ⟨x, by rw [← hxy]; rfl⟩) hy

/-- A mark that begins a script but has no end mark after it stays, with all that follows it. -/
theorem Cleared.append_unclosed (h : Cleared s left) (hfree : ¬legacyEnd <:+: after) :
    Cleared (s ++ (legacyStart ++ after)) (left ++ (legacyStart ++ after)) := by
  induction h with
  | @none s h =>
    refine .none fun a body r hs => ?_
    have hs : s ++ (legacyStart ++ after) = (a ++ (legacyStart ++ body)) ++ (legacyEnd ++ r) := by rw [hs]; simp
    rcases List.append_eq_append_iff.mp hs with ⟨c, -, hc⟩ | ⟨b, rfl, hb⟩
    · -- The end mark begins behind the text, and so behind the mark that is not closed.
      have hle := stop_after_start (Or.inl rfl) (Or.inl rfl) hc
      obtain ⟨c', rfl⟩ := List.prefix_of_prefix_length_le (hc ▸ List.prefix_append _ after) (List.prefix_append c _) hle
      rw [List.append_assoc] at hc
      refine hfree ⟨c', r, ?_⟩
      rw [List.append_assoc]
      exact (List.append_cancel_left hc).symm
    · have hbody : ∀ t (_ : Unit), t = legacyEnd → ¬t <:+: body ++ b := by
        rintro t - rfl ⟨x, y, hxy⟩
        exact h a x y (by rw [← List.append_assoc x, hxy]; simp)
      by_cases hne : b = []
      · subst hne
        have hle := stop_after_start (a := []) (Or.inl rfl) (Or.inl rfl) hb.symm
        exact absurd hle (by decide)
      · exact end_unreached_start.not_begins (w := ()) hbody (List.suffix_append body b) hne rfl ⟨r, hb⟩
  | script hstart hend h ih =>
    rw [List.append_assoc]
    exact .script (First.append_right (by decide) hstart _) (First.append_right (by decide) hend _) ih

end

/-! ### Openings without an end -/

section
variable {s before t after : List Char} {tag : Tag}

/-- A tag has no `>` before its last character. -/
theorem TagMark.ends_by {front rest : List Char} (ht : TagMark ['<'] t tag)
    (h : before ++ (t ++ after) = front ++ ('>' :: rest)) (hle : before.length ≤ front.length) :
    before ++ t <+: front ++ ['>'] := by
  obtain ⟨x, rfl⟩ := List.prefix_of_prefix_length_le (h ▸ List.prefix_append before _) (List.prefix_append front _) hle
  rw [List.append_assoc] at h
  rw [List.append_assoc]
  refine (List.prefix_append_right_inj before).mpr ?_
  rcases List.append_eq_append_iff.mp (List.append_cancel_left h) with ⟨y, rfl, -⟩ | ⟨y, hy, hr⟩
  · exact ⟨y ++ ['>'], by simp⟩
  · cases y with
    | nil => exact ⟨['>'], by simp [hy]⟩
    | cons c y =>
      obtain ⟨rfl, -⟩ := List.cons.inj hr
      rcases List.eq_nil_or_concat y with rfl | ⟨y, d, rfl⟩
      · exact ⟨[], by simp [hy]⟩
      · have hbegin : '<' :: tag.name = x ++ '>' :: y := by
          have hlast : ('<' :: tag.name) ++ ['>'] = (x ++ '>' :: y) ++ [d] := by
            simpa using ht.1.symm.trans hy
          exact (List.append_inj' hlast rfl).1
        obtain ⟨digits, hname⟩ := ht.2
        have hmem : '>' ∈ '<' :: tag.name := by rw [hbegin]; simp
        exact absurd (List.mem_cons.mp hmem) (not_or.mpr ⟨by decide, hname.not_mem (by decide) (by decide)⟩)

/-- The opening tag of a block is closed behind it. -/
theorem Formed.closed {b : Block} (h : Formed b) {rest : List Char} (ht : TagMark ['<'] t tag)
    (heq : t ++ after = b.raw ++ rest) : ∃ c, ClosesTag tag.name c ∧ c <:+: after := by
  have hm := openTag_spells.match?_append_of_mark ht after
  rw [heq, Enclosed.raw, List.append_assoc, openTag_spells.match?_append_of_mark h.tagMark, Option.some.injEq,
    Match.mk.injEq] at hm
  obtain ⟨rfl, -, rfl⟩ := hm
  exact ⟨b.closing, h.closing, b.body, rest, rfl⟩

/-- A tag that begins in a block ends in it. -/
theorem Formed.ends_tag {b : Block} (h : Formed b) {front rest : List Char} (ht : TagMark ['<'] t tag)
    (heq : before ++ (t ++ after) = front ++ (b.raw ++ rest)) (hlt : before.length < (front ++ b.raw).length) :
    before ++ t <+: front ++ b.raw := by
  obtain ⟨other, hother, -⟩ := h.closing
  have hraw : b.raw = (b.opening ++ (b.body ++ ('<' :: '/' :: other))) ++ ['>'] := by simp [Enclosed.raw, hother]
  rw [hraw, ← List.append_assoc] at hlt ⊢
  have hwhole : before ++ (t ++ after) =
      (front ++ (b.opening ++ (b.body ++ ('<' :: '/' :: other)))) ++ ('>' :: rest) := by
    rw [heq, hraw]
    simp
  rw [List.length_append, List.length_singleton] at hlt
  exact ht.ends_by hwhole (Nat.le_of_lt_succ hlt)

/-- An opening tag without a closing one behind it is inside a block or outside it, and does not begin one. -/
theorem Decomposes.unclosed {n : Nat} {ps : List Placed} (D : Decomposes n s ps) (hs : s = before ++ (t ++ after))
    (ht : TagMark ['<'] t tag) (hopen : ∀ c, ClosesTag tag.name c → ¬c <:+: after) {p : Placed} (hp : p ∈ ps) :
    n + utf8Size (before ++ t) ≤ p.first ∨ p.last ≤ n + utf8Size before ∨
      p.first < n + utf8Size before ∧ n + utf8Size (before ++ t) ≤ p.last := by
  obtain ⟨front, rest, hp', hfirst, hlast⟩ := D.slices p hp
  rw [hfirst, Nat.add_assoc, ← utf8Size_append] at hlast
  have hformed := D.formed p hp
  have heq := hs.symm.trans hp'
  rcases Nat.lt_trichotomy before.length front.length with hlt | hlen | hgt
  · have hbracket : p.block.raw ++ rest = '<' :: (p.block.raw ++ rest).tail := by
      rw [Enclosed.raw, hformed.opening]
      rfl
    have := utf8Size_le_of_prefix (ht.ends_before (heq.trans (by rw [hbracket])) hlt)
    exact Or.inl (by omega)
  · obtain ⟨c, hc, hafter⟩ := hformed.closed ht (List.append_inj heq hlen).2
    exact absurd hafter (hopen c hc)
  · by_cases hle : (front ++ p.block.raw).length ≤ before.length
    · have hpre : front ++ p.block.raw <+: s := ⟨rest, by rw [hp', List.append_assoc]⟩
      have := utf8Size_le_of_prefix (List.prefix_of_prefix_length_le hpre ⟨t ++ after, hs.symm⟩ hle)
      exact Or.inr (Or.inl (by omega))
    · have hinside := utf8Size_le_of_prefix (hformed.ends_tag ht heq (Nat.lt_of_not_le hle))
      obtain ⟨x, rfl⟩ := List.prefix_of_prefix_length_le ⟨_, heq.symm⟩ (List.prefix_append before _) (Nat.le_of_lt hgt)
      have hx := length_le_utf8Size x
      rw [List.length_append] at hgt
      refine Or.inr (Or.inr ⟨?_, by omega⟩)
      rw [utf8Size_append]
      omega

end

theorem outside_part {ps : List Placed} {n : Nat} {t : List Char}
    (h : ∀ p ∈ ps, n + utf8Size t ≤ p.first ∨ p.last ≤ n) : outside ps n t = t := by
  refine outside_eq_self fun x hx => List.all_eq_true.mpr fun p hp => ?_
  have hx := mem_offsets hx
  rcases h p hp with h | h
  · have : x.1 < p.first := by omega
    simp [this]
  · have : p.last ≤ x.1 := by omega
    simp [this]

/-- An opening tag that is never closed stays, unless it is inside a block. -/
theorem outside_unclosed {s before t after : List Char} {tag : Tag} (hs : s = before ++ (t ++ after))
    (ht : TagMark ['<'] t tag) (hopen : ∀ c, ClosesTag tag.name c → ¬c <:+: after) :
    (∃ p ∈ placed s, p.first < utf8Size before ∧ utf8Size (before ++ t) ≤ p.last) ∨
      outside (placed s) 0 s =
        outside (placed s) 0 before ++ (t ++ outside (placed s) (utf8Size (before ++ t)) after) := by
  have D : Decomposes 0 s (placed s) := decomposes_iff.mpr rfl
  by_cases hinside : ∃ p ∈ placed s, p.first < utf8Size before ∧ utf8Size (before ++ t) ≤ p.last
  · exact Or.inl hinside
  · have hpart : outside (placed s) (0 + utf8Size before) t = t := outside_part fun p hp => by
      have hp' := D.unclosed hs ht hopen hp
      simp only [utf8Size_append, Nat.zero_add] at hp' ⊢
      rcases hp' with h | h | h
      · exact Or.inl h
      · exact Or.inr h
      · exact absurd ⟨p, hp, by simpa using h⟩ hinside
    right
    calc outside (placed s) 0 s = outside (placed s) 0 (before ++ (t ++ after)) := by rw [← hs]
      _ = _ := by rw [outside_append, outside_append, hpart, utf8Size_append, Nat.zero_add]

/-- Stripping deletes the scripts of the first generation from left to right, and of what is left the ranges of the
    blocks, each of which is a range when it is deleted. The result are the gaps between the ranges, with blanks only
    taken off their ends: every character outside the ranges, in order. An opening that is never closed stays. -/
theorem strip_eq_trim_gaps (text : List Char) :
    ∃ left gaps, (∀ s, Cleared text s ↔ s = left) ∧ Gaps 0 left (placed left) gaps ∧ strip text = trim gaps.flatten ∧
      deleteAll? (placed left) left = some gaps.flatten ∧ stripInPlace? text = some (strip text) ∧
      outside (placed left) 0 left = gaps.flatten ∧
      (∀ before after, text = before ++ (legacyStart ++ after) → ¬legacyEnd <:+: after →
        ∃ a, Cleared before a ∧ left = a ++ (legacyStart ++ after)) ∧
      (∀ before t after tag, left = before ++ (t ++ after) → TagMark ['<'] t tag →
        (∀ c, ClosesTag tag.name c → ¬c <:+: after) →
          (∃ p ∈ placed left, p.first < utf8Size before ∧ utf8Size (before ++ t) ≤ p.last) ∨
            gaps.flatten = outside (placed left) 0 before ++
              (t ++ outside (placed left) (utf8Size (before ++ t)) after)) := by
  obtain ⟨gaps, hgaps, hremove⟩ := exists_gaps_placedFrom 0 (legacyBlock.remove text)
  have hdelete : deleteAll? (placed (legacyBlock.remove text)) ([] ++ legacyBlock.remove text) =
      some ([] ++ gaps.flatten) := Gaps.deleteAll?_eq hgaps
  rw [List.nil_append, List.nil_append] at hdelete
  have hstrip : strip text = trim gaps.flatten := by rw [strip, hremove]
  have hcleared : ∀ s, Cleared text s ↔ s = legacyBlock.remove text :=
    fun s => ⟨Cleared.eq_remove, fun h => h ▸ cleared_remove text⟩
  refine ⟨legacyBlock.remove text, gaps, hcleared, hgaps, hstrip, hdelete, ?_, hgaps.outside_eq, ?_, ?_⟩
  · rw [stripInPlace?, hstrip]
    exact congrArg (Option.map trim) hdelete
  · rintro before after rfl hfree
    have hbefore := cleared_remove before
    exact ⟨_, hbefore, ((hcleared _).mp (hbefore.append_unclosed hfree)).symm⟩
  · intro before t after tag hs ht hopen
    rw [← hgaps.outside_eq]
    exact outside_unclosed hs ht hopen

end ToolScript.Markup
