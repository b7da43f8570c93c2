import ToolScript.Proofs.Markup.Deletion

/-! # Blocks and scripts of the first generation

    A dispatcher finds the blocks of a reply as it stands, but stripping finds them in what is left without the scripts
    of the first generation. Where scripts and blocks are nested or apart, and no tag comes together from two sides of
    a script, the two views agree: stripping leaves nothing of any block. Else it may leave parts of blocks. -/

namespace ToolScript.Markup
open Text Text.Pattern ToolScript.Stream

/-- Every script of the first generation stands apart from every block, or holds it, or stands in its body. -/
def Nested (text : List Char) : Prop :=
  ∀ a m b k, legacyBlock.Finds text a m → block.Finds text b k →
    ((a ++ m.text).length ≤ b.length ∨ (b ++ k.text).length ≤ a.length) ∨
      (a.length ≤ b.length ∧ (b ++ k.text).length ≤ (a ++ m.text).length) ∨
        ((b ++ k.value.opening).length ≤ a.length ∧
          (a ++ m.text).length ≤ (b ++ (k.value.opening ++ k.value.body)).length)

/-- An opening or a closing tag. -/
def IsTag (t : List Char) : Prop :=
  (∃ tag, TagMark ['<'] t tag) ∨ ∃ tag, TagMark ['<', '/'] t tag

/-- The tags in a text without its scripts of the first generation stand in the text in one piece each. -/
def Unspliced (text : List Char) : Prop :=
  ∀ a t r, legacyBlock.remove text = a ++ (t ++ r) → IsTag t → ∃ c, legacyBlock.Stays text c a t

section
variable {s x y left front : List Char}

theorem leaves_of_not_mem (h : '[' ∉ x) (y : List Char) : legacyBlock.Leaves y x x :=
  .gap (legacyBlock_not_begins h y)

/-! ### The part of a text behind a boundary -/

theorem Nested.behind (h : Nested (x ++ y)) (hlegacy : legacyBlock.Leaves y x left) (hblocks : block.Leaves y x front) :
    Nested y := by
  intro a m b k hm hk
  have := h (x ++ a) m (x ++ b) k (hlegacy.finds hm) (hblocks.finds hk)
  simp only [List.length_append] at this ⊢
  omega

theorem IsTag.ne_nil {t : List Char} (h : IsTag t) : t ≠ [] := by
  rcases h with ⟨tag, h⟩ | ⟨tag, h⟩
  · simp [h.1]
  · simp [h.1]

theorem Unspliced.behind (h : Unspliced (x ++ y)) (hlegacy : legacyBlock.Leaves y x left) : Unspliced y := by
  intro a t r hs ht
  have hne := ht.ne_nil
  obtain ⟨c, hstays⟩ := h (left ++ a) t r (by rw [hlegacy.remove_append, hs, List.append_assoc]) ht
  rcases hlegacy.stays_cases hne hstays with ⟨-, hlt, -⟩ | ⟨c, b, rfl, hb, hstays⟩
  · rw [List.length_append] at hlt
    omega
  · rw [← List.append_cancel_left hb] at hstays
    exact ⟨c, hstays⟩

/-! ### Blocks in what is left -/

/-- Where no block of a text begins in its front part, none begins in what is left of that part. -/
theorem Unspliced.match?_eq_none (h : Unspliced (x ++ y)) (hlegacy : legacyBlock.Leaves y x left)
    (hnone : ∀ b, b <:+ x ++ y → y.length < b.length → block.match? b = none) :
    ∀ b, b <:+ left → b ≠ [] → block.match? (b ++ legacyBlock.remove y) = none := by
  rintro b ⟨front, rfl⟩ hne
  cases hk : block.match? (b ++ legacyBlock.remove y) with
  | none => rfl
  | some k =>
    obtain ⟨hwhole, hraw, hformed, -⟩ := block_match?_iff.mp hk
    have hleft : legacyBlock.remove (x ++ y) =
        front ++ (k.value.opening ++ (k.value.body ++ (k.value.closing ++ k.rest))) := by
      rw [hlegacy.remove_append, List.append_assoc, hwhole, hraw]
      simp [Enclosed.raw]
    have htag : IsTag k.value.opening := Or.inl ⟨_, hformed.tagMark⟩
    obtain ⟨digits, hname, -⟩ := hformed.name
    obtain ⟨c, hopening⟩ := h _ _ _ hleft htag
    obtain ⟨c', hclosing⟩ := h (front ++ (k.value.opening ++ k.value.body)) k.value.closing k.rest
      (by rw [hleft]; simp) (Or.inr (hformed.closing.tagMark hname))
    obtain ⟨mid, r, rfl, -⟩ := hopening.exists_after hclosing htag.ne_nil (by simp)
    obtain ⟨r, hr⟩ := hclosing.eq_append
    have hwhole : x ++ y = c ++ (k.value.opening ++ (mid ++ (k.value.closing ++ r))) := by rw [hr]; simp
    have hlt : c.length < x.length := by
      rcases hlegacy.stays_cases htag.ne_nil hopening with ⟨hlt, -, -⟩ | ⟨a', b', -, hb', -⟩
      · exact hlt
      · have hlen := congrArg List.length hb'
        have hpos := List.length_pos_iff.mpr hne
        simp only [List.length_append] at hlen
        omega
    have hlen := congrArg List.length hwhole
    simp only [List.length_append] at hlen
    have hm := (block_match?_tag_iff hformed.tagMark).mp (hnone _ ⟨c, hwhole.symm⟩ (by
      simp only [List.length_append]
      omega))
    exact absurd ⟨mid, r, List.append_assoc _ _ _⟩ (hm _ hformed.closing)

/-- A tag in what is left of the front part of a text stands in that part. -/
theorem Unspliced.stands (h : Unspliced (x ++ y)) (hlegacy : legacyBlock.Leaves y x left) {t : List Char}
    (ht : IsTag t) (hleft : t <:+: left) : t <:+: x := by
  obtain ⟨u, v, rfl⟩ := hleft
  have hne := ht.ne_nil
  obtain ⟨c, hstays⟩ := h u t (v ++ legacyBlock.remove y) (by rw [hlegacy.remove_append]; simp) ht
  rcases hlegacy.stays_cases hne hstays with ⟨-, -, hend⟩ | ⟨a', b', -, hb', -⟩
  · obtain ⟨r, hr⟩ := hstays.eq_append
    rw [← List.append_assoc] at hr
    obtain ⟨w, hw⟩ := List.prefix_of_prefix_length_le ⟨r, hr.symm⟩ (List.prefix_append x y)
      (hend (by simp only [List.length_append]; omega))
    exact ⟨c, w, hw⟩
  · have hlen := congrArg List.length hb'
    have hpos := List.length_pos_iff.mpr hne
    simp only [List.length_append] at hlen
    omega

/-! ### Stripping leaves nothing of a block -/

/-- If no script of the first generation holds the first block, none reaches over an end of it or of its body. -/
theorem Nested.leaves_parts {before rest : List Char} {b : Block} (hnested : Nested (before ++ (b.raw ++ rest)))
    (found : block.search (before ++ (b.raw ++ rest)) = some ⟨⟨b, b.raw, rest⟩, before⟩)
    (hbare : ¬∃ a m, legacyBlock.Finds (before ++ (b.raw ++ rest)) a m ∧ a.length ≤ before.length ∧
      (before ++ b.raw).length ≤ (a ++ m.text).length) :
    ∃ l l', legacyBlock.Leaves (b.raw ++ rest) before l ∧ legacyBlock.Leaves (b.closing ++ rest) b.body l' := by
  have hformed : Formed b := (block_match?_iff.mp (match?_of_search found)).2.2.1
  have hcross : ∀ a m, legacyBlock.Finds (before ++ (b.raw ++ rest)) a m → a.length < (before ++ b.raw).length →
      before.length < (a ++ m.text).length →
        (before ++ b.opening).length ≤ a.length ∧ (a ++ m.text).length ≤ (before ++ (b.opening ++ b.body)).length := by
    intro a m hm hlt hgt
    have hbeside := hnested a m before ⟨b, b.raw, rest⟩ hm (.first found)
    rcases hbeside with h | h | h
    · simp only at h
      omega
    · exact absurd ⟨a, m, hm, h⟩ hbare
    · exact h
  have hbefore : ∃ l, legacyBlock.Leaves (b.raw ++ rest) before l := by
    rcases leaves_or_finds (p := legacyBlock) before (b.raw ++ rest) with h | ⟨a, m, hm, hlt, hgt⟩
    · exact h
    · have := hcross a m hm (by rw [List.length_append]; omega) hgt
      rw [List.length_append] at this
      omega
  obtain ⟨l, hl⟩ := hbefore
  have hraw : b.raw ++ rest = b.opening ++ (b.body ++ (b.closing ++ rest)) := by simp [Enclosed.raw]
  have hfront : legacyBlock.Leaves (b.body ++ (b.closing ++ rest)) (before ++ b.opening) (l ++ b.opening) :=
    (hraw ▸ hl).append (leaves_of_not_mem (square_not_mem_tag (by simp) hformed.tagMark) _)
  rcases leaves_or_finds (p := legacyBlock) b.body (b.closing ++ rest) with ⟨l', hl'⟩ | ⟨a, m, hm, hlt, hgt⟩
  · exact ⟨l, l', hl, hl'⟩
  · have hm' := hfront.finds hm
    rw [List.append_assoc, ← hraw] at hm'
    have := hcross _ m hm' (by simp only [Enclosed.raw, List.length_append]; omega)
      (by simp only [List.length_append] at hgt ⊢; omega)
    simp only [List.length_append] at this hgt
    omega

/-- A script of the first generation that begins before the first block may hold blocks; the text after it is stripped
    by itself. -/
theorem remove_blocks_after_script {a : List Char} {m : Match (Enclosed Unit)} {h : Hit Block} (hnested : Nested s)
    (hunspliced : Unspliced s) (found : block.search s = some h) (hm : legacyBlock.Finds s a m)
    (hle : a.length ≤ h.before.length) :
    Nested m.rest ∧ Unspliced m.rest ∧
      ((block.remove (legacyBlock.remove m.rest)).Sublist (block.remove m.rest) →
        (block.remove (legacyBlock.remove s)).Sublist (block.remove s)) := by
  obtain rfl := hm.eq_append
  have hsearch := search_eq_append found
  obtain ⟨l, hl⟩ := hm.leaves
  have hbefore := leaves_before found hle
  have hnested' := hnested.behind hl hbefore
  have hscript := leaves_match hm.match?
  have hblocks : ∃ l', block.Leaves m.rest m.text l' := by
    rcases leaves_or_finds (p := block) m.text m.rest with h | ⟨b, k, hk, hlt, hgt⟩
    · exact h
    · have hopening : k.value.opening ≠ [] := by
        simp [(block_match?_iff.mp hk.match?).2.2.1.opening]
      have hpos := List.length_pos_iff.mpr hopening
      have hbeside := hnested a m (a ++ b) k hm (hbefore.finds hk)
      simp only [List.length_append] at hbeside hgt
      omega
  obtain ⟨l', hl'⟩ := hblocks
  have hlegacy : legacyBlock.remove (a ++ (m.text ++ m.rest)) = l ++ legacyBlock.remove m.rest := by
    rw [hl.remove_append, remove_of_match? hm.match?]
  have hearly := hunspliced.match?_eq_none hl fun b hb hlt => match?_before_search found hb (by
    have hlen := congrArg List.length hsearch
    simp only [List.length_append] at hlen hlt ⊢
    omega)
  rw [remove_of_match? hm.match?] at hearly
  refine ⟨hnested'.behind hscript hl', (hunspliced.behind hl).behind hscript, fun ih => ?_⟩
  rw [hlegacy, remove_append hearly, hbefore.remove_append, hl'.remove_append]
  exact hl.sublist.append (ih.trans (List.sublist_append_right _ _))

/-- A block that no script of the first generation holds is removed with what is left of its body. -/
theorem remove_blocks_after_block {before rest : List Char} {b : Block} (hnested : Nested (before ++ (b.raw ++ rest)))
    (hunspliced : Unspliced (before ++ (b.raw ++ rest)))
    (found : block.search (before ++ (b.raw ++ rest)) = some ⟨⟨b, b.raw, rest⟩, before⟩)
    (hbare : ¬∃ a m, legacyBlock.Finds (before ++ (b.raw ++ rest)) a m ∧ a.length ≤ before.length ∧
      (before ++ b.raw).length ≤ (a ++ m.text).length) :
    Nested rest ∧ Unspliced rest ∧
      ((block.remove (legacyBlock.remove rest)).Sublist (block.remove rest) →
        (block.remove (legacyBlock.remove (before ++ (b.raw ++ rest)))).Sublist
          (block.remove (before ++ (b.raw ++ rest)))) := by
  obtain ⟨-, -, hformed, hshut⟩ := block_match?_iff.mp (match?_of_search found)
  obtain ⟨l, l', hl, hl'⟩ := hnested.leaves_parts found hbare
  obtain ⟨digits, hname, -⟩ := hformed.name
  have htag : IsTag b.closing := Or.inr (hformed.closing.tagMark hname)
  have hopening := leaves_of_not_mem (square_not_mem_tag (by simp) hformed.tagMark) (b.body ++ b.closing ++ rest)
  have hclosing : legacyBlock.Leaves rest b.closing b.closing := by
    obtain ⟨tag, ht⟩ := hformed.closing.tagMark hname
    exact leaves_of_not_mem (square_not_mem_tag (by simp) ht) rest
  let b' : Block := { b with body := l' }
  have hraw : legacyBlock.Leaves rest b.raw b'.raw := hopening.append (hl'.append hclosing)
  have hshut' : Shut b' := by
    intro t ht hinfix
    have hblock := hunspliced.behind hl
    rw [Enclosed.raw, List.append_assoc] at hblock
    have hbody := hblock.behind hopening
    rw [List.append_assoc] at hbody
    exact hshut t ht (hbody.stands hl' (Or.inr (ht.tagMark hname)) hinfix)
  have hm : block.match? (b'.raw ++ legacyBlock.remove rest) = some ⟨b', b'.raw, legacyBlock.remove rest⟩ :=
    block_match?_iff.mpr ⟨rfl, rfl, ⟨hformed.opening, hformed.closing, hformed.name⟩, hshut'⟩
  have hearly := hunspliced.match?_eq_none hl fun t ht hlt => match?_before_search found ht hlt
  have hbefore := leaves_before found (Nat.le_refl _)
  refine ⟨(hnested.behind hl hbefore).behind hraw (leaves_match (match?_of_search found)),
    (hunspliced.behind hl).behind hraw, fun ih => ?_⟩
  rw [hl.remove_append, remove_append hearly, hraw.remove_append, remove_of_match? hm, remove_of_some found]
  exact hl.sublist.append ih

theorem remove_blocks_sublist (hnested : Nested s) (hunspliced : Unspliced s) :
    (block.remove (legacyBlock.remove s)).Sublist (block.remove s) := by
  induction hn : s.length using Nat.strong_induction_on generalizing s with
  | _ n ih =>
    subst hn
    cases found : block.search s with
    | none =>
      rw [remove_of_none found]
      exact (remove_sublist _ _).trans (remove_sublist _ _)
    | some h =>
      by_cases hcover : ∃ a m, legacyBlock.Finds s a m ∧ a.length ≤ h.before.length ∧
          (h.before ++ h.text).length ≤ (a ++ m.text).length
      · obtain ⟨a, m, hm, hle, -⟩ := hcover
        have hlt : m.rest.length < s.length := by
          have hlen := congrArg List.length hm.eq_append
          have hpos := match?_length_pos hm.match?
          simp only [List.length_append] at hlen
          omega
        obtain ⟨hnested', hunspliced', hrest⟩ := remove_blocks_after_script hnested hunspliced found hm hle
        exact hrest (ih _ hlt hnested' hunspliced' rfl)
      · have hlt := rest_length_lt found
        obtain ⟨⟨b, text, rest⟩, before⟩ := h
        obtain rfl : text = b.raw := (block_match?_iff.mp (match?_of_search found)).2.1
        obtain rfl : s = before ++ (b.raw ++ rest) := search_eq_append found
        obtain ⟨hnested', hunspliced', hrest⟩ := remove_blocks_after_block hnested hunspliced found hcover
        exact hrest (ih _ hlt hnested' hunspliced' rfl)

end

/-- The characters outside all blocks are what is left when the blocks are removed. -/
theorem outside_placed (text : List Char) : outside (placed text) 0 text = block.remove text := by
  obtain ⟨gaps, hgaps, hremove⟩ := exists_gaps_placedFrom 0 text
  rw [hremove]
  exact hgaps.outside_eq

/-- Of a text whose scripts of the first generation and blocks are nested or apart, and of which no tag is spliced,
    stripping leaves characters outside all blocks only, in their order. -/
theorem strip_sublist_outside {text : List Char} (hnested : Nested text) (hunspliced : Unspliced text) :
    (strip text).Sublist (outside (placed text) 0 text) := by
  rw [outside_placed, strip]
  exact (trim_sublist _).trans (remove_blocks_sublist hnested hunspliced)

/-- A block, and another one inside a script of the first generation. -/
def nestedReply : List Char := "<nit>a()</nit>[[[NIT_CALL]]]<nit>b()</nit>[[[NIT_END]]]".toList

theorem strip_sublist_outside_nestedReply : Nested nestedReply ∧ Unspliced nestedReply ∧
    (strip nestedReply).Sublist (outside (placed nestedReply) 0 nestedReply) := by
  have hscript : legacyBlock.search nestedReply = some ⟨⟨⟨(), legacyStart, "<nit>b()</nit>".toList, legacyEnd⟩,
      "[[[NIT_CALL]]]<nit>b()</nit>[[[NIT_END]]]".toList, []⟩, "<nit>a()</nit>".toList⟩ := rfl
  have hfirst : block.search nestedReply = some ⟨⟨⟨⟨"nit".toList⟩, "<nit>".toList, "a()".toList, "</nit>".toList⟩,
      "<nit>a()</nit>".toList, "[[[NIT_CALL]]]<nit>b()</nit>[[[NIT_END]]]".toList⟩, []⟩ := rfl
  have hsecond : block.search "[[[NIT_CALL]]]<nit>b()</nit>[[[NIT_END]]]".toList =
      some ⟨⟨⟨⟨"nit".toList⟩, "<nit>".toList, "b()".toList, "</nit>".toList⟩, "<nit>b()</nit>".toList,
        "[[[NIT_END]]]".toList⟩, "[[[NIT_CALL]]]".toList⟩ := rfl
  have hlast : block.search "[[[NIT_END]]]".toList = none := rfl
  have hnested : Nested nestedReply := by
    intro a m b k hm hk
    rcases (finds_iff_of_some hscript).mp hm with ⟨ha, hm⟩ | ⟨c, -, hm⟩
    · rw [ha, hm]
      rcases (finds_iff_of_some hfirst).mp hk with ⟨hb, hk⟩ | ⟨c, hb, hk⟩
      · rw [hb, hk]
        exact Or.inl (Or.inr (by decide +kernel))
      · rw [hb]
        rcases (finds_iff_of_some hsecond).mp hk with ⟨hc, hk⟩ | ⟨d, -, hk⟩
        · rw [hc, hk]
          exact Or.inr (Or.inl (by decide +kernel))
        · exact (not_finds_of_none hlast hk).elim
    · exact (not_finds_of_none (search_nil _) hm).elim
  have hunspliced : Unspliced nestedReply := by
    intro a t r hs _
    rw [remove_of_some hscript, remove_of_none (search_nil _), List.append_nil] at hs
    exact ⟨a, .first hscript hs⟩
  exact ⟨hnested, hunspliced, strip_sublist_outside hnested hunspliced⟩

/-- Two blocks that name the marks of a script of the first generation, each one of them. -/
def crossedReply : List Char :=
  "<nit>a(x=\"[[[NIT_CALL]]]\")</nit><nit-ab12>b(x=\"[[[NIT_END]]]\")</nit-ab12>".toList

/-- The reply is made of the two blocks, but stripping leaves the beginning of the one with the end of the other. -/
theorem crossedReply_left : outside (placed crossedReply) 0 crossedReply = [] ∧
    strip crossedReply = "<nit>a(x=\"\")</nit-ab12>".toList ∧
      ¬(strip crossedReply).Sublist (outside (placed crossedReply) 0 crossedReply) := by
  have hfirst : block.search crossedReply = some ⟨⟨⟨⟨"nit".toList⟩, "<nit>".toList,
      "a(x=\"[[[NIT_CALL]]]\")".toList, "</nit>".toList⟩, "<nit>a(x=\"[[[NIT_CALL]]]\")</nit>".toList,
      "<nit-ab12>b(x=\"[[[NIT_END]]]\")</nit-ab12>".toList⟩, []⟩ := rfl
  have hsecond : block.search "<nit-ab12>b(x=\"[[[NIT_END]]]\")</nit-ab12>".toList = some ⟨⟨⟨⟨"nit-ab12".toList⟩,
      "<nit-ab12>".toList, "b(x=\"[[[NIT_END]]]\")".toList, "</nit-ab12>".toList⟩,
      "<nit-ab12>b(x=\"[[[NIT_END]]]\")</nit-ab12>".toList, []⟩, []⟩ := rfl
  have hscript : legacyBlock.search crossedReply = some ⟨⟨⟨(), legacyStart,
      "\")</nit><nit-ab12>b(x=\"".toList, legacyEnd⟩,
      "[[[NIT_CALL]]]\")</nit><nit-ab12>b(x=\"[[[NIT_END]]]".toList, "\")</nit-ab12>".toList⟩,
      "<nit>a(x=\"".toList⟩ := rfl
  have hrest : legacyBlock.search "\")</nit-ab12>".toList = none := rfl
  have hleft : block.search "<nit>a(x=\"\")</nit-ab12>".toList = none := rfl
  have houtside : outside (placed crossedReply) 0 crossedReply = [] := by
    rw [outside_placed, remove_of_some hfirst, remove_of_some hsecond, remove_of_none (search_nil _)]
    rfl
  have hstrip : strip crossedReply = "<nit>a(x=\"\")</nit-ab12>".toList := by
    rw [strip, remove_of_some hscript, remove_of_none hrest]
    show trim (block.remove "<nit>a(x=\"\")</nit-ab12>".toList) = _
    rw [remove_of_none hleft]
    rfl
  refine ⟨houtside, hstrip, ?_⟩
  rw [houtside, hstrip]
  decide

end ToolScript.Markup
