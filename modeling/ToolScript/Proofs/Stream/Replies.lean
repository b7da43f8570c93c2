import ToolScript.Proofs.Markup.Decomposition
import ToolScript.Proofs.Stream.Scripts

/-! # Streamed and finished replies

    A finished reply is stripped in two steps, first of the scripts of the first generation and then of the blocks in
    tags; a filter hides scripts of both in one pass and ends each at the first end mark of any. Of a reply in which
    plain pieces and whole scripts alternate, both leave the plain pieces, however the reply is cut. -/

namespace ToolScript.Stream
open Text Text.Pattern Markup

/-- A text that begins no script. -/
structure Plain (s : List Char) : Prop where
  noTag : '<' ∉ s
  noMark : ¬legacyStart <:+: s

/-- The marks of a script: those of the first generation, or an opening tag and one that closes it. -/
inductive Encloses : List Char → List Char → Prop
  | legacy : Encloses legacyStart legacyEnd
  | tags {opening closing : List Char} {tag : Tag} (hopen : TagMark ['<'] opening tag)
      (hclose : ClosesTag tag.name closing) : Encloses opening closing

/-- A text with no mark of a script in it. -/
def Unmarked (body : List Char) : Prop :=
  ∀ t, ScriptStart t () ∨ ScriptStop t () → ¬t <:+: body

/-- A text in which plain pieces and whole scripts alternate, and the plain pieces of it. -/
inductive Alternates : List Char → List Char → Prop
  | plain {s : List Char} (hs : Plain s) : Alternates s s
  | script {s opening body closing text shown : List Char} (hs : Plain s) (marks : Encloses opening closing)
      (hbody : Unmarked body) (more : Alternates text shown) :
      Alternates (s ++ (opening ++ (body ++ (closing ++ text)))) (s ++ shown)

section
variable {s opening body closing : List Char}

theorem Plain.free (h : Plain s) : ∀ t w, ScriptStart t w → ¬t <:+: s := by
  intro t _ ht hts
  rcases ht with rfl | ⟨tag, ht⟩
  · exact h.noMark hts
  · exact h.noTag (hts.subset (by rw [ht.1]; exact List.mem_cons_self))

theorem Encloses.start (h : Encloses opening closing) : ScriptStart opening () := by
  cases h with
  | legacy => exact Or.inl rfl
  | tags hopen hclose => exact Or.inr ⟨_, hopen⟩

theorem Encloses.stop (h : Encloses opening closing) : ScriptStop closing () := by
  cases h with
  | legacy => exact Or.inl rfl
  | tags hopen hclose =>
    obtain ⟨-, digits, hname⟩ := hopen
    exact Or.inr (hclose.tagMark hname)

theorem Unmarked.of_search (hstart : scriptStart.search body = none) (hstop : scriptStop.search body = none) :
    Unmarked body := by
  rintro t ht ⟨a, r, rfl⟩
  rw [List.append_assoc] at hstart hstop
  rcases ht with ht | ht
  · exact scriptStart_spells.search_eq_none_iff.mp hstart a t () r rfl ht
  · exact scriptStop_spells.search_eq_none_iff.mp hstop a t () r rfl ht

/-! ### What a filter shows -/

theorem hide_plain (h : Plain s) : scriptMarkers.hide s = s := by
  refine Markers.hide_of_none (scriptStart_spells.search_eq_none_iff.mpr ?_)
  intro a t w r hs ht
  exact h.free t w ht ⟨a, r, by rw [hs, List.append_assoc]⟩

theorem hide_script (h : Plain s) (marks : Encloses opening closing) (hbody : Unmarked body) (rest : List Char) :
    scriptMarkers.hide (s ++ (opening ++ (body ++ (closing ++ rest)))) = s ++ scriptMarkers.hide rest := by
  have hfirst : First ScriptStart (s ++ (opening ++ (body ++ (closing ++ rest)))) s opening () (body ++ (closing ++ rest)) := by
    refine (first_append_iff ?_ start_unreached).mpr ⟨marks.start, h.free⟩
    rintro t _ (rfl | ⟨tag, ht⟩)
    · decide
    · simp [ht.1]
  have hstop := first_stop marks.stop (fun t ht => hbody t (Or.inr ht)) rest
  have found := scriptStart_spells.search_eq_some_iff (h := ⟨⟨(), opening, _⟩, s⟩).mpr hfirst
  have closed := scriptStop_spells.search_eq_some_iff (h := ⟨⟨(), closing, rest⟩, body⟩).mpr hstop
  rw [Markers.hide_of_some (m := scriptMarkers) found, Markers.hideFrom_of_some (m := scriptMarkers) closed]
  rfl

theorem Alternates.hide {text shown : List Char} (h : Alternates text shown) : scriptMarkers.hide text = shown := by
  induction h with
  | plain hs => exact hide_plain hs
  | script hs marks hbody more ih => rw [hide_script hs marks hbody, ih]

/-! ### What is left of scripts of the first generation -/

theorem legacyStart_spells : (Pattern.exactly legacyStart).Spells fun t _ => t = legacyStart :=
  exactly_spells (by decide)

theorem legacyEnd_spells : (Pattern.exactly legacyEnd).Spells fun t _ => t = legacyEnd :=
  exactly_spells (by decide)

theorem legacyBlock_match?_eq_none (h : ¬legacyStart <+: s) : legacyBlock.match? s = none := by
  have hstart : (Pattern.exactly legacyStart).match? s = none := by
    cases hm : (Pattern.exactly legacyStart).match? s with
    | none => rfl
    | some m =>
      obtain ⟨hs, ht⟩ := (legacyStart_spells s m).mp hm
      exact absurd ⟨m.rest, by rw [hs, ht]⟩ h
  simp [legacyBlock, enclosed, hstart]

/-- A script goes from the first mark that begins one to the first behind that which ends it. -/
theorem legacyBlock_search_of_first {before after rest : List Char}
    (hstart : First (fun t (_ : Unit) => t = legacyStart) s before legacyStart () after)
    (hend : First (fun t (_ : Unit) => t = legacyEnd) after body legacyEnd () rest) :
    ∃ h, legacyBlock.search s = some h ∧ h.before = before ∧ h.rest = rest := by
  let script : Enclosed Unit := ⟨(), legacyStart, body, legacyEnd⟩
  have hafter : after = body ++ (legacyEnd ++ rest) := hend.whole
  have hs : s = before ++ (script.raw ++ rest) := by
    rw [hstart.whole, hafter]
    simp [script, Enclosed.raw]
  have hm : legacyBlock.match? (script.raw ++ rest) = some ⟨script, script.raw, rest⟩ := by
    have hraw : script.raw ++ rest = legacyStart ++ after := by rw [hafter]; simp [script, Enclosed.raw]
    have opened := legacyStart_spells.match?_append_of_mark (v := ()) rfl after
    have closed := legacyEnd_spells.search_eq_some_iff (h := ⟨⟨(), legacyEnd, rest⟩, body⟩).mpr hend
    rw [hraw]
    simp only [legacyBlock, enclosed, opened, Option.bind_some, closed, Option.map_some, script]
  refine ⟨⟨⟨script, script.raw, rest⟩, before⟩, search_eq_some_iff.mpr ⟨hs, hm, ?_⟩, rfl, rfl⟩
  rintro b ⟨a, hb⟩ hlt
  refine legacyBlock_match?_eq_none fun hbegins => ?_
  obtain ⟨r, rfl⟩ := hbegins
  have hle := hstart.least a legacyStart () r hb.symm rfl
  have hlen := congrArg List.length (hb.trans hs)
  simp only [List.length_append] at hlen hlt
  omega

/-- No script begins in a text without its bracket. -/
theorem legacyBlock_not_begins (h : '[' ∉ s) (rest : List Char) :
    ∀ b, b <:+ s → b ≠ [] → legacyBlock.match? (b ++ rest) = none := by
  refine fun b hb hne => legacyBlock_match?_eq_none fun hpre => ?_
  obtain ⟨c, b, rfl⟩ := List.exists_cons_of_ne_nil hne
  have hc : '[' = c := (List.cons_prefix_cons.mp hpre).1
  exact h (hb.subset (hc ▸ List.mem_cons_self))

theorem removeLegacy_of_not_mem (h : '[' ∉ s) (rest : List Char) :
    legacyBlock.remove (s ++ rest) = s ++ legacyBlock.remove rest :=
  remove_append (legacyBlock_not_begins h rest)

theorem removeLegacy_append (hs : ¬legacyStart <:+: s) {mark : List Char}
    (hmark : Unreached (fun t (_ : Unit) => t = legacyStart) mark) (rest : List Char) :
    legacyBlock.remove (s ++ (mark ++ rest)) = s ++ legacyBlock.remove (mark ++ rest) := by
  refine remove_append fun b hb hne => legacyBlock_match?_eq_none ?_
  refine hmark.not_begins (w := ()) ?_ hb hne rfl
  rintro t _ rfl
  exact hs

theorem removeLegacy_plain (h : Plain s) : legacyBlock.remove s = s := by
  refine remove_of_none (search_eq_none_iff.mpr fun b hb => legacyBlock_match?_eq_none fun hpre => ?_)
  exact h.noMark (hpre.isInfix.trans hb.isInfix)

theorem removeLegacy_legacy (hbody : Unmarked body) (rest : List Char) :
    legacyBlock.remove (legacyStart ++ (body ++ (legacyEnd ++ rest))) = legacyBlock.remove rest := by
  have hend : Unreached (fun t (_ : Unit) => t = legacyEnd) legacyEnd := (stop_unreached (Or.inl rfl)).mono Or.inl
  have hfirst : First (fun t (_ : Unit) => t = legacyEnd) (body ++ (legacyEnd ++ rest)) body legacyEnd () rest := by
    refine (first_append_iff ?_ fun _ => hend).mpr ⟨rfl, ?_⟩
    · rintro t _ rfl
      decide
    · rintro t _ rfl
      exact hbody _ (Or.inr (Or.inl rfl))
  have hstart := First.of_mark (M := fun t (_ : Unit) => t = legacyStart) (v := ()) rfl (body ++ (legacyEnd ++ rest))
  obtain ⟨h, found, hbefore, hrest⟩ := legacyBlock_search_of_first hstart hfirst
  rw [remove_of_some found, hbefore, hrest, List.nil_append]

/-- Blocks in tags stay. -/
theorem removeLegacy_tags {tag : Tag} (hopen : TagMark ['<'] opening tag) (hclose : ClosesTag tag.name closing)
    (hbody : Unmarked body) (rest : List Char) :
    legacyBlock.remove (opening ++ (body ++ (closing ++ rest))) =
      opening ++ (body ++ (closing ++ legacyBlock.remove rest)) := by
  have hclosing : ∃ tag, TagMark ['<', '/'] closing tag := by
    obtain ⟨-, digits, hname⟩ := hopen
    exact hclose.tagMark hname
  obtain ⟨tag', htag'⟩ := hclosing
  have hreach : Unreached (fun t (_ : Unit) => t = legacyStart) closing := by
    refine .of_not_mem (c := '<') ?_ (by rw [htag'.1]; rfl)
    rintro t _ rfl
    decide
  rw [removeLegacy_of_not_mem (square_not_mem_tag (by simp) hopen),
    removeLegacy_append (hbody _ (Or.inl (Or.inl rfl))) hreach,
    removeLegacy_of_not_mem (square_not_mem_tag (by simp) htag')]

/-! ### What is left of blocks -/

theorem removeBlocks_of_not_mem (h : '<' ∉ s) (rest : List Char) : block.remove (s ++ rest) = s ++ block.remove rest := by
  refine remove_append fun b hb hne => ?_
  cases hm : block.match? (b ++ rest) with
  | none => rfl
  | some m =>
    obtain ⟨hs, hraw, hformed, -⟩ := block_match?_iff.mp hm
    obtain ⟨c, b, rfl⟩ := List.exists_cons_of_ne_nil hne
    have hc : c = '<' := by
      rw [hraw, Enclosed.raw, hformed.opening] at hs
      exact (List.cons.inj hs).1
    exact absurd (hb.subset List.mem_cons_self) (hc ▸ h)

theorem removeBlocks_tags {tag : Tag} (hopen : TagMark ['<'] opening tag) (hclose : ClosesTag tag.name closing)
    (hbody : Unmarked body) (rest : List Char) :
    block.remove (opening ++ (body ++ (closing ++ rest))) = block.remove rest := by
  have hformed : Formed ⟨tag, opening, body, closing⟩ := .of_tagMark hopen hclose
  have hshut : Shut ⟨tag, opening, body, closing⟩ := by
    intro t ht
    obtain ⟨-, digits, hname⟩ := hopen
    exact hbody t (Or.inr (Or.inr (ht.tagMark hname)))
  have hm : block.match? (opening ++ (body ++ (closing ++ rest))) =
      some ⟨⟨tag, opening, body, closing⟩, Enclosed.raw ⟨tag, opening, body, closing⟩, rest⟩ :=
    block_match?_iff.mpr ⟨by simp [Enclosed.raw], rfl, hformed, hshut⟩
  exact remove_of_match? hm

theorem Alternates.remove {text shown : List Char} (h : Alternates text shown) :
    block.remove (legacyBlock.remove text) = shown := by
  induction h with
  | @plain s hs =>
    have hblocks := removeBlocks_of_not_mem hs.noTag []
    rw [List.append_nil] at hblocks
    rw [removeLegacy_plain hs, hblocks, remove_of_none (search_nil block), List.append_nil]
  | @script s opening body closing text shown hs marks hbody more ih =>
    have hreach : Unreached (fun t (_ : Unit) => t = legacyStart) opening := (start_unreached marks.start).mono Or.inl
    rw [removeLegacy_append hs.noMark hreach, removeBlocks_of_not_mem hs.noTag]
    cases marks with
    | legacy => rw [removeLegacy_legacy hbody, ih]
    | tags hopen hclose => rw [removeLegacy_tags hopen hclose hbody, removeBlocks_tags hopen hclose hbody, ih]

end

/-- Of a reply in which plain pieces and whole scripts alternate, a filter shows the plain pieces, however the reply is
    cut, and stripping leaves the same but for the blanks at its ends. -/
theorem trim_run_eq_strip {text shown : List Char} (h : Alternates text shown) {chunks : List (List Char)}
    (hcut : chunks.flatten = text) :
    trim (scriptMarkers.run chunks) = strip text ∧ strip text = trim shown ∧ scriptMarkers.run chunks = shown := by
  have hrun : scriptMarkers.run chunks = shown := by
    rw [← h.hide, ← hcut]
    exact scriptMarkers_lawful.runFrom_eq scriptMarkers.drained_initial chunks
  have hstrip : strip text = trim shown := by rw [strip, h.remove]
  exact ⟨by rw [hrun, hstrip], hstrip, hrun⟩

/-- A script of each generation, with parts of marks in them and around them, and with cuts in the marks. -/
def fragments : List (List Char) :=
  [" Hi [[[[[NIT_C".toList, "ALL]]]a<nit[[[NIT_END]]]]<nit-aB12>b[[[NIT_END]]</N".toList, "IT-Ab12> NIT_CALL]]]\n".toList]

theorem alternates_fragments : Alternates fragments.flatten " Hi [[] NIT_CALL]]]\n".toList := by
  have htext : fragments.flatten = " Hi [[".toList ++ (legacyStart ++ ("a<nit".toList ++ (legacyEnd ++ ("]".toList ++
      ("<nit-aB12>".toList ++ ("b[[[NIT_END]]".toList ++ ("</NIT-Ab12>".toList ++ " NIT_CALL]]]\n".toList))))))) := by decide
  have hshown : " Hi [[] NIT_CALL]]]\n".toList = " Hi [[".toList ++ ("]".toList ++ " NIT_CALL]]]\n".toList) := by decide
  have htag : TagMark ['<'] "<nit-aB12>".toList ⟨"nit-aB12".toList⟩ :=
    ⟨rfl, some "aB12".toList, @TagName.numbered "nit".toList _ rfl rfl (List.all_eq_true.mp (by decide))⟩
  have hclose : ClosesTag "nit-aB12".toList "</NIT-Ab12>".toList := ⟨"NIT-Ab12".toList, by decide, by decide⟩
  have hfirst : Unmarked "a<nit".toList := .of_search rfl rfl
  have hsecond : Unmarked "b[[[NIT_END]]".toList := .of_search rfl rfl
  have hgreeting : Plain " Hi [[".toList := ⟨by decide, by decide⟩
  have hbracket : Plain "]".toList := ⟨by decide, by decide⟩
  have hend : Plain " NIT_CALL]]]\n".toList := ⟨by decide, by decide⟩
  rw [htext, hshown]
  exact .script hgreeting .legacy hfirst (.script hbracket (.tags htag hclose) hsecond (.plain hend))

theorem trim_run_eq_strip_fragments :
    Alternates fragments.flatten " Hi [[] NIT_CALL]]]\n".toList ∧
      trim (scriptMarkers.run fragments) = strip fragments.flatten :=
  ⟨alternates_fragments, (trim_run_eq_strip alternates_fragments rfl).1⟩

end ToolScript.Stream
