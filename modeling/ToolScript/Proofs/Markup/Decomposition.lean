import ToolScript.Markup.Block
import ToolScript.Proofs.Markup.Tags

/-! # The blocks of a text

    The placed blocks of a text are the only list of blocks that stand in it in order and apart, of which none has
    its own closing tag in its body, and outside of which no opening tag has a closing one after it
    (`Decomposes`). Such lists are taken apart like the search does it: the first block is the first hit, and the
    others decompose the text after it (`decomposes_cons_iff`). -/

namespace ToolScript.Text

/-- Of two beginnings of a text the one with fewer bytes is a beginning of the other. -/
theorem prefix_of_utf8Size_le {a b s : List Char} (ha : a <+: s) (hb : b <+: s) (h : utf8Size a ≤ utf8Size b) : a <+: b := by
  rcases List.prefix_or_prefix_of_prefix ha hb with hab | ⟨x, rfl⟩
  · exact hab
  · have := length_le_utf8Size x
    rw [utf8Size_append] at h
    obtain rfl : x = [] := List.length_eq_zero_iff.mp (by omega)
    rw [List.append_nil]

/-- The bytes from `first` to `last` of a text that begins at byte `n` are `part`. -/
def Slice (n : Nat) (text : List Char) (first last : Nat) (part : List Char) : Prop :=
  ∃ before after, text = before ++ (part ++ after) ∧ first = n + utf8Size before ∧ last = first + utf8Size part

namespace Slice
variable {n first last : Nat} {front rest part : List Char}

theorem le_first (h : Slice n rest first last part) : n ≤ first := by
  obtain ⟨before, after, -, rfl, -⟩ := h
  omega

theorem last_le (h : Slice n rest first last part) : last ≤ n + utf8Size rest := by
  obtain ⟨before, after, rfl, rfl, rfl⟩ := h
  simp only [utf8Size_append]
  omega

theorem append_left (h : Slice (n + utf8Size front) rest first last part) : Slice n (front ++ rest) first last part := by
  obtain ⟨before, after, rfl, rfl, rfl⟩ := h
  refine ⟨front ++ before, after, by simp, ?_, rfl⟩
  rw [utf8Size_append, Nat.add_assoc]

theorem drop_left (h : Slice n (front ++ rest) first last part) (hle : n + utf8Size front ≤ first) :
    Slice (n + utf8Size front) rest first last part := by
  obtain ⟨before, after, hs, rfl, rfl⟩ := h
  obtain ⟨x, rfl⟩ := prefix_of_utf8Size_le (List.prefix_append front rest) ⟨part ++ after, hs.symm⟩ (by omega)
  rw [List.append_assoc] at hs
  refine ⟨x, after, List.append_cancel_left hs, ?_, rfl⟩
  rw [utf8Size_append, Nat.add_assoc]

end Slice

end ToolScript.Text

namespace ToolScript.Markup
open Text Text.Pattern

/-! ### Blocks by themselves -/

/-- How a block is written: its tag in brackets, its body, and a closing tag of the same name in any case. -/
structure Formed (b : Block) : Prop where
  opening : b.opening = '<' :: (b.mark.name ++ ['>'])
  closing : ClosesTag b.mark.name b.closing
  /-- The name is that of a tag, and the block has the digits of the name in upper case. -/
  name : ∃ digits, TagName b.mark.name digits ∧ b.turn? = digits.map fun ds => String.ofList (ds.map Char.toUpper)

/-- The body of a block does not close it. -/
def Shut (b : Block) : Prop :=
  ∀ t, ClosesTag b.mark.name t → ¬t <:+: b.body

theorem Formed.tagMark {b : Block} (h : Formed b) : TagMark ['<'] b.opening b.mark := by
  obtain ⟨digits, hname, -⟩ := h.name
  exact ⟨h.opening, digits, hname⟩

theorem Formed.of_tagMark {b : Block} (ho : TagMark ['<'] b.opening b.mark) (hc : ClosesTag b.mark.name b.closing) :
    Formed b := by
  obtain ⟨h, digits, hname⟩ := ho
  refine ⟨h, hc, digits, hname, ?_⟩
  rw [← hname.digits?_eq]
  rfl

/-- A body that has no closing tag in lower case has none. -/
theorem Shut.of_map_toLower {b : Block}
    (h : ¬('<' :: '/' :: (b.mark.name ++ ['>'])).map Char.toLower <:+: b.body.map Char.toLower) : Shut b := by
  rintro t ⟨other, rfl, hother⟩ ⟨before, after, hbody⟩
  refine h ⟨before.map Char.toLower, after.map Char.toLower, ?_⟩
  rw [← hbody]
  simp [hother]

/-- A closing tag of a tag's name has a bracket at its beginning only. -/
theorem ClosesTag.not_mem_tail {name t : List Char} {digits : Option (List Char)} (hname : TagName name digits)
    (ht : ClosesTag name t) : '<' ∉ t.tail := by
  obtain ⟨other, rfl, hother⟩ := ht
  have hlt : '<' ∉ other := fun h => by
    have : '<' ∈ other.map Char.toLower := List.mem_map.mpr ⟨'<', h, by decide⟩
    rw [hother] at this
    exact hname.not_mem (by decide) (by decide) (mem_of_mem_map_toLower (by decide) this)
  simp [hlt]

/-- The first closing tag of a text is the one before which the text does not close the tag. -/
theorem first_closing_iff {name body closing rest : List Char} {digits : Option (List Char)} (hname : TagName name digits) :
    First (fun t (_ : Unit) => ClosesTag name t) (body ++ (closing ++ rest)) body closing () rest ↔
      ClosesTag name closing ∧ ∀ t, ClosesTag name t → ¬t <:+: body := by
  refine (first_append_iff ?_ fun hmark => .of_head (c := '<') (fun ht => ht.not_mem_tail hname) ?_).trans (by simp)
  · rintro t _ ⟨other, rfl, -⟩
    simp
  · obtain ⟨other, rfl, -⟩ := hmark
    rfl

/-- A text begins with a block exactly where a formed one stands that is not closed before its end. -/
theorem block_match?_iff {s : List Char} {m : Match Block} : block.match? s = some m ↔
    s = m.text ++ m.rest ∧ m.text = m.value.raw ∧ Formed m.value ∧ Shut m.value := by
  simp only [block, enclosed, Option.bind_eq_some_iff, Option.map_eq_some_iff]
  constructor
  · rintro ⟨k, hk, h, found, rfl⟩
    obtain ⟨rfl, hopen⟩ := (openTag_spells s k).mp hk
    obtain ⟨-, digits, hname⟩ := id hopen
    have hfirst := (closing_spells k.value).search_eq_some_iff.mp found
    have hwhole := hfirst.whole
    rw [hwhole] at hfirst
    obtain ⟨hclose, hshut⟩ := (first_closing_iff hname).mp hfirst
    exact ⟨by simp [Enclosed.raw, hwhole], rfl, .of_tagMark hopen hclose, hshut⟩
  · rintro ⟨rfl, hraw, hformed, hshut⟩
    obtain ⟨b, text, rest⟩ := m
    simp only at hraw hformed hshut ⊢
    subst hraw
    obtain ⟨digits, hname, -⟩ := hformed.name
    refine ⟨⟨b.mark, b.opening, b.body ++ (b.closing ++ rest)⟩, ?_, ⟨⟨(), b.closing, rest⟩, b.body⟩, ?_, rfl⟩
    · exact (openTag_spells _ _).mpr ⟨by simp [Enclosed.raw], hformed.tagMark⟩
    · exact (closing_spells b.mark).search_eq_some_iff.mpr ((first_closing_iff hname).mpr ⟨hformed.closing, hshut⟩)

theorem block_match?_tag_iff {t after : List Char} {tag : Tag} (ht : TagMark ['<'] t tag) :
    block.match? (t ++ after) = none ↔ ∀ c, ClosesTag tag.name c → ¬c <:+: after := by
  simp only [block, enclosed, openTag_spells.match?_append_of_mark ht after, Option.bind_some, Option.map_eq_none_iff,
    (closing_spells tag).search_eq_none_iff]
  constructor
  · rintro hfree c hc ⟨a, r, h⟩
    exact hfree a c () r (by rw [← h, List.append_assoc]) hc
  · rintro h a c _ r hs hc
    exact h c hc ⟨a, r, by rw [hs, List.append_assoc]⟩

/-- A tag that begins before a bracket ends before it. -/
theorem TagMark.ends_before {t front rest before after : List Char} {tag : Tag} (ht : TagMark ['<'] t tag)
    (h : front ++ (t ++ rest) = before ++ ('<' :: after)) (hlt : front.length < before.length) :
    front ++ t <+: before := by
  obtain ⟨x, rfl⟩ := List.prefix_of_prefix_length_le (h ▸ List.prefix_append front _) (List.prefix_append before _)
    (Nat.le_of_lt hlt)
  rw [List.append_assoc] at h
  rcases List.append_eq_append_iff.mp (List.append_cancel_left h) with ⟨y, rfl, -⟩ | ⟨y, hy, hr⟩
  · exact ⟨y, by simp⟩
  · cases y with
    | nil => exact ⟨[], by simp [hy]⟩
    | cons c y =>
      cases x with
      | nil => simp at hlt
      | cons d x =>
        have htail : tag.name ++ ['>'] = x ++ c :: y := (List.cons.inj (ht.1.symm.trans hy)).2
        have hc : '<' = c := (List.cons.inj hr).1
        refine absurd ?_ (ht.not_mem (c := '<') (by decide) (by decide) (by decide))
        rw [htail, hc]
        simp

/-! ### Lists of blocks -/

/-- The blocks `ps` decompose a text that begins at byte `n`. -/
structure Decomposes (n : Nat) (text : List Char) (ps : List Placed) : Prop where
  /-- Every block stands in the text at its place. -/
  slices : ∀ p ∈ ps, Slice n text p.first p.last p.block.raw
  inside : ∀ p ∈ ps, p.first < p.last ∧ p.last ≤ n + utf8Size text
  ordered : ps.Pairwise fun p q => p.last ≤ q.first
  formed : ∀ p ∈ ps, Formed p.block
  shut : ∀ p ∈ ps, Shut p.block
  /-- An opening tag outside all blocks has no closing tag after it. -/
  complete : ∀ before t after tag, text = before ++ (t ++ after) → TagMark ['<'] t tag →
    (∀ p ∈ ps, n + utf8Size (before ++ t) ≤ p.first ∨ p.last ≤ n + utf8Size before) →
      ∀ c, ClosesTag tag.name c → ¬c <:+: after

/-- A hit as a block of a text that begins at byte `n`. -/
def placedHit (n : Nat) (h : Hit Block) : Placed :=
  ⟨h.value, n + utf8Size h.before, n + utf8Size h.before + utf8Size h.text⟩

section
variable {n : Nat} {s : List Char} {p : Placed} {ps : List Placed}

theorem decomposes_nil_iff : Decomposes n s [] ↔ block.search s = none := by
  constructor
  · intro D
    cases found : block.search s with
    | none => rfl
    | some h =>
      obtain ⟨-, hraw, hformed, -⟩ := block_match?_iff.mp (match?_of_search found)
      have hs := search_eq_append found
      rw [hraw, Enclosed.raw, List.append_assoc, List.append_assoc] at hs
      refine absurd ?_ (D.complete _ _ _ _ hs hformed.tagMark (by simp) _ hformed.closing)
      exact ⟨h.value.body, h.rest, by simp⟩
  · intro hn
    refine ⟨by simp, by simp, .nil, by simp, by simp, fun before t after tag hs ht _ => ?_⟩
    exact (block_match?_tag_iff ht).mp (search_eq_none_iff.mp hn _ ⟨before, hs.symm⟩)

/-- No block begins before the first of a decomposition: its opening tag would be outside all blocks, and closed. -/
theorem Decomposes.match?_before (D : Decomposes n s (p :: ps)) {before after b : List Char}
    (hs : s = before ++ (p.block.raw ++ after)) (hfirst : p.first = n + utf8Size before) (hb : b <:+ s)
    (hlt : (p.block.raw ++ after).length < b.length) : block.match? b = none := by
  obtain ⟨front, hb⟩ := hb
  cases hk : block.match? b with
  | none => rfl
  | some k =>
    obtain ⟨hbk, hraw, hformed, -⟩ := block_match?_iff.mp hk
    have htag := hformed.tagMark
    have hs' : s = front ++ (k.value.opening ++ (k.value.body ++ (k.value.closing ++ k.rest))) := by
      rw [← hb, hbk, hraw]
      simp [Enclosed.raw]
    refine absurd ?_ (D.complete _ _ _ _ hs' htag ?_ _ hformed.closing)
    · exact ⟨k.value.body, k.rest, by simp⟩
    · have hbracket : p.block.raw ++ after = '<' :: (p.block.raw ++ after).tail := by
        rw [Enclosed.raw, (D.formed p List.mem_cons_self).opening]
        rfl
      have hlen := congrArg List.length (hb.trans hs)
      simp only [List.length_append] at hlen hlt
      obtain ⟨y, hy⟩ := htag.ends_before (hs'.symm.trans (hs.trans (by rw [hbracket]))) (by omega)
      have hsize : utf8Size (front ++ k.value.opening) ≤ utf8Size before := by
        rw [← hy, utf8Size_append _ y]
        omega
      intro q hq
      left
      rcases List.mem_cons.mp hq with rfl | hq
      · omega
      · have := (List.pairwise_cons.mp D.ordered).1 q hq
        have := (D.inside p List.mem_cons_self).1
        omega

/-- The first block of a decomposition is the first hit. -/
theorem Decomposes.search_eq (D : Decomposes n s (p :: ps)) : ∃ h, block.search s = some h ∧ p = placedHit n h := by
  obtain ⟨before, after, hs, hfirst, hlast⟩ := D.slices p List.mem_cons_self
  have hm : block.match? (p.block.raw ++ after) = some ⟨p.block, p.block.raw, after⟩ :=
    block_match?_iff.mpr ⟨rfl, rfl, D.formed p List.mem_cons_self, D.shut p List.mem_cons_self⟩
  refine ⟨⟨⟨p.block, p.block.raw, after⟩, before⟩, search_eq_some_iff.mpr ⟨hs, hm, ?_⟩, ?_⟩
  · exact fun b hb hlt => D.match?_before hs hfirst hb hlt
  · obtain ⟨b, first, last⟩ := p
    simp only at hfirst hlast
    rw [placedHit, hlast, hfirst]

theorem placedHit_last (n : Nat) (h : Hit Block) : (placedHit n h).last = n + utf8Size (h.before ++ h.text) := by
  rw [placedHit, utf8Size_append, Nat.add_assoc]

theorem placedHit_slice (n : Nat) {h : Hit Block} (found : block.search s = some h) :
    Slice n s (placedHit n h).first (placedHit n h).last h.text :=
  ⟨h.before, h.rest, search_eq_append found, rfl, rfl⟩

theorem Decomposes.tail {h : Hit Block} (D : Decomposes n s (placedHit n h :: ps)) (found : block.search s = some h) :
    Decomposes (placedHit n h).last h.rest ps := by
  have hs : s = (h.before ++ h.text) ++ h.rest := by rw [search_eq_append found, List.append_assoc]
  have hlast := placedHit_last n h
  have hafter := (List.pairwise_cons.mp D.ordered).1
  have hslices : ∀ q ∈ ps, Slice (placedHit n h).last h.rest q.first q.last q.block.raw := fun q hq => by
    have hq' := D.slices q (List.mem_cons_of_mem _ hq)
    rw [hs] at hq'
    rw [hlast]
    exact hq'.drop_left (hlast ▸ hafter q hq)
  refine ⟨hslices, fun q hq => ?_, (List.pairwise_cons.mp D.ordered).2,
    fun q hq => D.formed q (List.mem_cons_of_mem _ hq), fun q hq => D.shut q (List.mem_cons_of_mem _ hq), ?_⟩
  · exact ⟨(D.inside q (List.mem_cons_of_mem _ hq)).1, (hslices q hq).last_le⟩
  · intro before t after tag hrest ht hout
    refine D.complete (h.before ++ h.text ++ before) t after tag (by rw [hs, hrest]; simp) ht fun q hq => ?_
    rw [List.append_assoc, utf8Size_append _ (before ++ t), utf8Size_append _ before, ← Nat.add_assoc, ← Nat.add_assoc,
      ← hlast]
    rcases List.mem_cons.mp hq with rfl | hq
    · exact Or.inr (Nat.le_add_right _ _)
    · exact hout q hq

/-- An opening tag outside the first hit and the blocks after it has no closing tag after it. -/
theorem Decomposes.complete_cons {h : Hit Block} (found : block.search s = some h)
    (D : Decomposes (placedHit n h).last h.rest ps) {before t after : List Char} {tag : Tag}
    (hs' : s = before ++ (t ++ after)) (ht : TagMark ['<'] t tag)
    (hout : ∀ q ∈ placedHit n h :: ps, n + utf8Size (before ++ t) ≤ q.first ∨ q.last ≤ n + utf8Size before) :
    ∀ c, ClosesTag tag.name c → ¬c <:+: after := by
  have hs : s = (h.before ++ h.text) ++ h.rest := by rw [search_eq_append found, List.append_assoc]
  have hlast := placedHit_last n h
  rcases hout _ List.mem_cons_self with hbefore | hafter
  · -- The search passed over the tag.
    have hprefix : before ++ t <+: h.before := by
      have hleft : before ++ t ++ after = s := by rw [hs', List.append_assoc]
      exact prefix_of_utf8Size_le ⟨after, hleft⟩ ⟨h.text ++ h.rest, (search_eq_append found).symm⟩
        (Nat.le_of_add_le_add_left hbefore)
    have hlt : (h.text ++ h.rest).length < (t ++ after).length := by
      have hle := hprefix.length_le
      have htlen := congrArg List.length ht.1
      have hslen := congrArg List.length (hs.symm.trans hs')
      simp only [List.length_append, List.length_cons] at hle htlen hslen ⊢
      omega
    exact (block_match?_tag_iff ht).mp (match?_before_search found ⟨before, hs'.symm⟩ hlt)
  · have hprefix : h.before ++ h.text <+: before := by
      refine prefix_of_utf8Size_le ⟨h.rest, hs.symm⟩ ⟨t ++ after, hs'.symm⟩ ?_
      rw [hlast] at hafter
      exact Nat.le_of_add_le_add_left hafter
    obtain ⟨front, rfl⟩ := hprefix
    rw [hs, List.append_assoc _ front] at hs'
    refine D.complete front t after tag (List.append_cancel_left hs') ht fun q hq => ?_
    have hq' := hout q (List.mem_cons_of_mem _ hq)
    rwa [List.append_assoc, utf8Size_append _ (front ++ t), utf8Size_append _ front, ← Nat.add_assoc,
      ← Nat.add_assoc, ← hlast] at hq'

theorem Decomposes.cons {h : Hit Block} (found : block.search s = some h)
    (D : Decomposes (placedHit n h).last h.rest ps) : Decomposes n s (placedHit n h :: ps) := by
  obtain ⟨-, hraw, hformed, hshut⟩ := block_match?_iff.mp (match?_of_search found)
  have hs : s = (h.before ++ h.text) ++ h.rest := by rw [search_eq_append found, List.append_assoc]
  have hlast := placedHit_last n h
  have hslices : ∀ q ∈ placedHit n h :: ps, Slice n s q.first q.last q.block.raw := fun q hq => by
    rcases List.mem_cons.mp hq with rfl | hq
    · rw [show (placedHit n h).block.raw = h.text from hraw.symm]
      exact placedHit_slice n found
    · have hq' := D.slices q hq
      rw [hs]
      exact (hlast ▸ hq').append_left
  have hpos := match?_length_pos (match?_of_search found)
  have hsize := length_le_utf8Size h.text
  refine ⟨hslices, fun q hq => ⟨?_, (hslices q hq).last_le⟩,
    List.pairwise_cons.mpr ⟨fun q hq => (D.slices q hq).le_first, D.ordered⟩, ?_, ?_, ?_⟩
  · rcases List.mem_cons.mp hq with rfl | hq
    · show n + utf8Size h.before < n + utf8Size h.before + utf8Size h.text
      omega
    · exact (D.inside q hq).1
  · intro q hq
    rcases List.mem_cons.mp hq with rfl | hq
    · exact hformed
    · exact D.formed q hq
  · intro q hq
    rcases List.mem_cons.mp hq with rfl | hq
    · exact hshut
    · exact D.shut q hq
  · exact fun before t after tag hs' ht hout => D.complete_cons found hs' ht hout

theorem decomposes_cons_iff : Decomposes n s (p :: ps) ↔
    ∃ h, block.search s = some h ∧ p = placedHit n h ∧ Decomposes p.last h.rest ps := by
  constructor
  · intro D
    obtain ⟨h, found, rfl⟩ := D.search_eq
    exact ⟨h, found, rfl, D.tail found⟩
  · rintro ⟨h, found, rfl, D⟩
    exact .cons found D

end

theorem decomposes_iff {n : Nat} {s : List Char} {ps : List Placed} :
    Decomposes n s ps ↔ ps = placedFrom n (block.cut s).hits := by
  induction ps generalizing n s with
  | nil =>
    rw [decomposes_nil_iff]
    cases found : block.search s with
    | none => simp [cut_of_none found, placedFrom]
    | some h => simp [cut_of_some found, placedFrom]
  | cons p ps ih =>
    rw [decomposes_cons_iff]
    cases found : block.search s with
    | none => simp [cut_of_none found, placedFrom]
    | some h =>
      rw [cut_of_some found]
      simp only [placedFrom, Option.some.injEq, exists_eq_left', List.cons.injEq]
      constructor
      · rintro ⟨rfl, D⟩
        exact ⟨rfl, ih.mp D⟩
      · rintro ⟨rfl, hps⟩
        exact ⟨rfl, ih.mpr hps⟩

theorem map_block_placedFrom (n : Nat) (hits : List (List Char × Match Block)) :
    (placedFrom n hits).map (·.block) = hits.map (·.2.value) := by
  induction hits generalizing n with
  | nil => rfl
  | cons hit hits ih => simp [placedFrom, ih]

theorem decomposes_blocks (text : List Char) : ∃ ps, Decomposes 0 text ps ∧ ps.map (·.block) = blocks text :=
  ⟨placed text, decomposes_iff.mpr rfl, map_block_placedFrom 0 _⟩

theorem formed_of_mem_blocks {text : List Char} {b : Block} (h : b ∈ blocks text) : Formed b := by
  obtain ⟨ps, D, hps⟩ := decomposes_blocks text
  obtain ⟨p, hp, rfl⟩ := List.mem_map.mp (hps ▸ h)
  exact D.formed p hp

theorem shut_of_mem_blocks {text : List Char} {b : Block} (h : b ∈ blocks text) : Shut b := by
  obtain ⟨ps, D, hps⟩ := decomposes_blocks text
  obtain ⟨p, hp, rfl⟩ := List.mem_map.mp (hps ▸ h)
  exact D.shut p hp

/-- Behind a text without opening tags a block that its body does not close is the first hit. -/
theorem search_block {b : Block} (hformed : Formed b) (hshut : Shut b) {front : List Char}
    (hfront : ∀ t tag, TagMark ['<'] t tag → ¬t <:+: front) (rest : List Char) :
    block.search (front ++ (b.raw ++ rest)) = some ⟨⟨b, b.raw, rest⟩, front⟩ := by
  have hm : block.match? (b.raw ++ rest) = some ⟨b, b.raw, rest⟩ := block_match?_iff.mpr ⟨rfl, rfl, hformed, hshut⟩
  have hreach : Unreached (TagMark ['<']) b.raw := by
    refine .of_head (c := '<') (fun ht => ht.not_mem_tail (by simp)) ?_
    rw [Enclosed.raw, hformed.opening]
    rfl
  have hpassed : ∀ a, a <:+ front → a ≠ [] → block.match? (a ++ (b.raw ++ rest)) = none := by
    intro a ha hne
    cases hk : block.match? (a ++ (b.raw ++ rest)) with
    | none => rfl
    | some k =>
      obtain ⟨hs, hraw, hk', -⟩ := block_match?_iff.mp hk
      have hbegins : k.value.opening <+: a ++ (b.raw ++ rest) := by
        rw [hs, hraw]
        exact ⟨k.value.body ++ (k.value.closing ++ k.rest), by simp [Enclosed.raw]⟩
      exact absurd hbegins (hreach.not_begins hfront ha hne hk'.tagMark)
  rw [search_append front hpassed, search_of_match? hm]
  simp

/-- A block that its body does not close is the one block of its own text. -/
theorem blocks_raw {b : Block} (hformed : Formed b) (hshut : Shut b) : blocks b.raw = [b] := by
  have hnone : ∀ t tag, TagMark ['<'] t tag → ¬t <:+: [] := by
    intro t tag ht hnil
    rw [List.infix_nil.mp hnil] at ht
    cases ht.1
  have found := search_block hformed hshut hnone []
  rw [List.nil_append, List.append_nil] at found
  rw [blocks, cut_of_some found, cut_of_none (search_nil block)]
  rfl

/-- The placed blocks of a text are the one list that decomposes it. -/
theorem decomposes_text_iff_eq_placed (text : List Char) (ps : List Placed) : Decomposes 0 text ps ↔ ps = placed text :=
  decomposes_iff

end ToolScript.Markup
