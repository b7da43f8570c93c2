import ToolScript.Proofs.Stream.Hiding
import ToolScript.Proofs.Text.Classes
import ToolScript.Proofs.Text.Spelling
import ToolScript.Stream.Aside

/-! # Asides hidden in chunks

    A text in one piece is shown without its asides. In chunks this holds as long as no start mark is cut behind a sign
    for kelvin: the sign is a k to the pattern of start marks and none to the test for their beginnings, so the part
    before such a cut is not held back. The mark is missed then, and the two parts of the stream are shown as two
    streams of their own. -/

namespace ToolScript.Stream
open Text Text.Pattern

/-- Letters that spell a word by simple case folding. -/
abbrev Folds (word letters : List Char) : Prop :=
  List.Forall₂ (fun l c => sameFolded l c = true) word letters

/-- How an aside begins: an opening bracket and letters that spell one of the words. -/
def AsideStart (t : List Char) (closing : Char) : Prop :=
  ∃ opening word letters, (opening, closing) ∈ asideBrackets ∧ word ∈ asideWords ∧ t = opening :: letters ∧
    Folds word letters

/-- An aside ends with the bracket that closes its opening one. -/
def AsideStop (closing : Char) (t : List Char) (_ : Unit) : Prop :=
  t = [closing]

/-! ### Start marks -/

theorem sameFolded_iff {l c : Char} : sameFolded l c = true ↔ l = c.toLower ∨ l = 'k' ∧ c = '\u212a' := by
  simp [sameFolded]

/-- What no letter of a start mark is. -/
structure AsideBracket (c : Char) : Prop where
  isAlpha : c.isAlpha = false
  ne_kelvin : c ≠ '\u212a'

theorem asideBrackets_are {opening closing : Char} (h : (opening, closing) ∈ asideBrackets) :
    AsideBracket opening ∧ AsideBracket closing ∧ ∀ bracket ∈ asideBrackets, bracket.1 ≠ closing := by
  have hall : ∀ b ∈ asideBrackets, (b.1.isAlpha = false ∧ b.1 ≠ '\u212a') ∧ (b.2.isAlpha = false ∧ b.2 ≠ '\u212a') ∧
      ∀ bracket ∈ asideBrackets, bracket.1 ≠ b.2 := by decide
  obtain ⟨⟨h₁, h₂⟩, ⟨h₃, h₄⟩, h₅⟩ := hall _ h
  exact ⟨⟨h₁, h₂⟩, ⟨h₃, h₄⟩, h₅⟩

theorem closing_unique {opening closing closing' : Char} (h : (opening, closing) ∈ asideBrackets)
    (h' : (opening, closing') ∈ asideBrackets) : closing = closing' := by
  have hall : ∀ b ∈ asideBrackets, ∀ b' ∈ asideBrackets, b.1 = b'.1 → b.2 = b'.2 := by decide +kernel
  exact hall _ h _ h' rfl

theorem isAlpha_of_mem_asideWords {word : List Char} (hword : word ∈ asideWords) {l : Char} (hl : l ∈ word) :
    l.isAlpha = true := by
  have hall : (asideWords.all fun word => word.all Char.isAlpha) = true := by decide
  exact List.all_eq_true.mp (List.all_eq_true.mp hall word hword) l hl

theorem letters_chars {word letters : List Char} (hword : word ∈ asideWords) (h : Folds word letters) :
    ∀ c ∈ letters, c.isAlpha = true ∨ c = '\u212a' := by
  intro c hc
  obtain ⟨i, hi, rfl⟩ := List.getElem_of_mem hc
  have hlen := h.length_eq
  have hfold := (List.forall₂_iff_get.mp h).2 i (by omega) hi
  rcases sameFolded_iff.mp hfold with hl | ⟨-, hk⟩
  · left
    rw [← Char.isAlpha_toLower_eq_isAlpha]
    have := isAlpha_of_mem_asideWords hword (List.get_mem word ⟨i, by omega⟩)
    rwa [hl] at this
  · exact Or.inr hk

theorem AsideBracket.not_mem {c : Char} (h : AsideBracket c) {word letters : List Char} (hword : word ∈ asideWords)
    (hletters : Folds word letters) : c ∉ letters := by
  intro hc
  rcases letters_chars hword hletters c hc with ha | hk
  · rw [h.isAlpha] at ha
    cases ha
  · exact h.ne_kelvin hk

theorem word_unique {word word' letters letters' r r' : List Char} (hword : word ∈ asideWords) (hword' : word' ∈ asideWords)
    (h : Folds word letters) (h' : Folds word' letters') (heq : letters ++ r = letters' ++ r') :
    word = word' := by
  -- The words differ in their first letters.
  have hall : ∀ word ∈ asideWords, ∀ word' ∈ asideWords, word ≠ [] ∧ word' ≠ [] ∧
      (word.head? = word'.head? → word = word') ∧ word.head? ≠ some 'k' := by decide
  obtain ⟨hne, hne', huniq, hk⟩ := hall word hword word' hword'
  obtain ⟨-, -, -, hk'⟩ := hall word' hword' word hword
  obtain ⟨l, word, rfl⟩ := List.exists_cons_of_ne_nil hne
  obtain ⟨l', word', rfl⟩ := List.exists_cons_of_ne_nil hne'
  obtain ⟨c, letters, hl, -, rfl⟩ := List.forall₂_cons_left_iff.mp h
  obtain ⟨c', letters', hl', -, rfl⟩ := List.forall₂_cons_left_iff.mp h'
  obtain ⟨rfl, -⟩ := List.cons.inj heq
  refine huniq ?_
  rcases sameFolded_iff.mp hl with rfl | ⟨rfl, -⟩
  · rcases sameFolded_iff.mp hl' with rfl | ⟨rfl, -⟩
    · rfl
    · exact absurd rfl hk'
  · exact absurd rfl hk

theorem AsideStart.agree {t t' r r' : List Char} {closing closing' : Char} (h : AsideStart t closing)
    (h' : AsideStart t' closing') (heq : t ++ r = t' ++ r') : t = t' ∧ closing = closing' := by
  obtain ⟨opening, word, letters, hb, hword, rfl, hletters⟩ := h
  obtain ⟨opening', word', letters', hb', hword', rfl, hletters'⟩ := h'
  obtain ⟨rfl, hrest⟩ := List.cons.inj heq
  obtain rfl := word_unique hword hword' hletters hletters' hrest
  have hlen : letters.length = letters'.length := hletters.length_eq.symm.trans hletters'.length_eq
  exact ⟨by rw [List.append_inj_left hrest hlen], closing_unique hb hb'⟩

theorem AsideStart.not_mem_tail {t : List Char} {closing c : Char} (h : AsideStart t closing) (hc : AsideBracket c) :
    c ∉ t.tail := by
  obtain ⟨opening, word, letters, -, hword, rfl, hletters⟩ := h
  exact hc.not_mem hword hletters

theorem AsideStart.closing_not_mem {t : List Char} {closing : Char} (h : AsideStart t closing) : closing ∉ t := by
  obtain ⟨opening, word, letters, hb, hword, rfl, hletters⟩ := h
  obtain ⟨-, hclosing, hne⟩ := asideBrackets_are hb
  intro hc
  rcases List.mem_cons.mp hc with rfl | hc
  · exact hne _ hb rfl
  · exact hclosing.not_mem hword hletters hc

theorem AsideStart.head {t : List Char} {closing : Char} (h : AsideStart t closing) :
    ∃ opening, AsideBracket opening ∧ t.head? = some opening := by
  obtain ⟨opening, word, letters, hb, -, rfl, -⟩ := h
  exact ⟨opening, (asideBrackets_are hb).1, rfl⟩

theorem asideStart_spells : asideStart.Spells AsideStart := by
  refine oneOf_spells (fun s m => ?_) AsideStart.agree
  have hletters : ∀ (bracket : Char × Char) (word : List Char),
      (Pattern.letters sameFolded (bracket.1 :: word)).Spells _ := fun bracket word => letters_spells (by simp)
  have hspells := fun bracket word => (hletters bracket word).map fun _ => bracket.2
  simp only [List.mem_flatMap, List.mem_map]
  constructor
  · rintro ⟨p, ⟨bracket, hb, word, hword, rfl⟩, hm⟩
    obtain ⟨hs, -, ht, hclosing⟩ := (hspells bracket word s m).mp hm
    obtain ⟨c, letters, hc, hletters, heq⟩ := List.forall₂_cons_left_iff.mp ht
    obtain ⟨hbracket, -⟩ : AsideBracket bracket.1 ∧ _ := asideBrackets_are hb
    obtain rfl : c = bracket.1 := by
      rcases sameFolded_iff.mp hc with hc | ⟨hk, -⟩
      · exact eq_of_toLower_eq hbracket.isAlpha hc.symm
      · have := hbracket.isAlpha
        rw [hk] at this
        cases this
    exact ⟨hs, bracket.1, word, letters, by rw [hclosing]; exact hb, hword, heq, hletters⟩
  · rintro ⟨hs, opening, word, letters, hb, hword, heq, hletters⟩
    refine ⟨_, ⟨(opening, m.value), hb, word, hword, rfl⟩, (hspells (opening, m.value) word s m).mpr ⟨hs, (), ?_, rfl⟩⟩
    rw [heq]
    refine .cons (sameFolded_iff.mpr (Or.inl ?_)) hletters
    exact (toLower_of_not_isAlpha (asideBrackets_are hb).1.isAlpha).symm

theorem asideMarkers_delimited : asideMarkers.Delimited AsideStart AsideStop where
  starts := asideStart_spells
  stops closing := exactly_spells (by simp)
  startsApart := by
    intro t _ t' _ a b h h' heq
    obtain ⟨opening, hbracket, hhead⟩ := h'.head
    exact eq_nil_of_not_mem_tail (h.not_mem_tail hbracket) hhead heq
  stopsApart closing := by
    rintro t _ t' _ a b rfl rfl heq
    have := congrArg List.length heq
    simp only [List.length_append, List.length_singleton] at this
    exact List.length_eq_zero_iff.mp (by omega)
  stopAfterStart := by
    rintro t closing t' a b r h rfl heq
    refine Nat.le_of_not_lt fun hlt => h.closing_not_mem ?_
    obtain ⟨x, hx, rfl, hend⟩ := exists_end_of_length_lt heq hlt
    exact List.mem_append_right a (mem_of_append_eq_cons hx hend)
  stopSize := by
    rintro t closing t' - rfl hlong
    simp at hlong

/-! ### Beginnings of start marks -/

theorem map_toLower_of_folded {word s s' : List Char} (h : Folds word (s ++ s')) (hk : '\u212a' ∉ s) :
    s.map Char.toLower <+: word := by
  induction s generalizing word with
  | nil => exact List.nil_prefix
  | cons c s ih =>
    obtain ⟨l, word, hl, hword, rfl⟩ := List.forall₂_cons_right_iff.mp h
    rw [List.mem_cons, not_or] at hk
    rcases sameFolded_iff.mp hl with rfl | ⟨-, rfl⟩
    · exact List.cons_prefix_cons.mpr ⟨rfl, ih hword hk.2⟩
    · exact absurd rfl hk.1

/-- What begins a start mark is recognised if it has no sign for kelvin in it. -/
theorem recognised_of_not_mem {a b : List Char} {closing : Char} (h : AsideStart (a ++ b) closing) (ha : a ≠ [])
    (hk : '\u212a' ∉ a) : utf8Size a ≤ asideMarkers.maxStart ∧ asideMarkers.couldStart a = true := by
  obtain ⟨opening, word, letters, hb, hword, heq, hletters⟩ := h
  obtain ⟨c, a, rfl⟩ := List.exists_cons_of_ne_nil ha
  obtain ⟨rfl, rfl⟩ := List.cons.inj heq
  rw [List.mem_cons, not_or] at hk
  have hprefix := map_toLower_of_folded hletters hk.2
  constructor
  · have hbracket : ∀ b ∈ asideBrackets, b.1.utf8Size ≤ 3 := by decide
    have hwords : ∀ word ∈ asideWords, word.length ≤ 9 := by decide
    have hsize : utf8Size a = a.length := utf8Size_eq_length fun d hd => by
      rcases letters_chars hword hletters d (List.mem_append_left b hd) with halpha | rfl
      · exact toNat_lt_of_isAlphanum (by simp [Char.isAlphanum, halpha])
      · exact absurd hd hk.2
    have hlen := hprefix.length_le
    rw [List.length_map] at hlen
    have h₁ := hbracket _ hb
    have h₂ := hwords word hword
    rw [utf8Size_cons, hsize]
    show _ ≤ 12
    simp only at h₁
    omega
  · show couldBeAside (c :: a) = true
    rw [couldBeAside, Bool.and_eq_true]
    exact ⟨List.any_eq_true.mpr ⟨_, hb, beq_self_eq_true _⟩,
      List.any_eq_true.mpr ⟨word, hword, List.isPrefixOf_iff_prefix.mpr hprefix⟩⟩

theorem couldBeAside_inv {s : List Char} (h : couldBeAside s = true) :
    '\u212a' ∉ s ∧ ∃ opening, AsideBracket opening ∧ s.head? = some opening := by
  cases s with
  | nil => cases h
  | cons c s =>
    rw [couldBeAside, Bool.and_eq_true] at h
    obtain ⟨hc, hs⟩ := h
    obtain ⟨⟨opening, closing⟩, hb, hc⟩ := List.any_eq_true.mp hc
    obtain rfl : opening = c := by simpa using hc
    obtain ⟨word, hword, hs⟩ := List.any_eq_true.mp hs
    have hbracket := (asideBrackets_are hb).1
    refine ⟨fun hk => ?_, opening, hbracket, rfl⟩
    rcases List.mem_cons.mp hk with hk | hk
    · exact hbracket.ne_kelvin hk.symm
    · have hmem : Char.toLower '\u212a' ∈ word :=
        (List.isPrefixOf_iff_prefix.mp hs).subset (List.mem_map_of_mem hk)
      have := isAlpha_of_mem_asideWords hword hmem
      exact absurd this (by decide)

/-! ### Cuts behind a sign for kelvin -/

/-- A start mark that begins in `s` and ends in `u` has a sign for kelvin in its part in `s`. -/
def CutBehindKelvin (s u : List Char) : Prop :=
  ∃ a b closing, AsideStart (a ++ b) closing ∧ '\u212a' ∈ a ∧ b ≠ [] ∧ a <:+ s ∧ b <+: u

theorem recognises_of_not_cut {s u : List Char} (h : ¬CutBehindKelvin s u) : asideMarkers.Recognises AsideStart s u := by
  intro a b closing hmark ha hb has hbu
  exact recognised_of_not_mem hmark ha fun hk => h ⟨a, b, closing, hmark, hk, hb, has, hbu⟩

theorem CutBehindKelvin.not_couldBeAside {s u : List Char} (h : CutBehindKelvin s u) {b : List Char} (hb : b <:+ s) :
    couldBeAside b = false := by
  obtain ⟨a, b', closing, hmark, hk, -, has, -⟩ := h
  refine Bool.eq_false_iff.mpr fun hcould => ?_
  obtain ⟨hkb, opening, hbracket, hhead⟩ := couldBeAside_inv hcould
  rcases List.suffix_or_suffix_of_suffix has hb with hab | hba
  · exact hkb (hab.subset hk)
  · obtain ⟨x, rfl⟩ := hba
    obtain rfl : x = [] :=
      eq_nil_of_not_mem_tail (hmark.not_mem_tail hbracket) hhead (List.append_assoc x b b')
    exact hkb hk

/-- A start mark is missed: it is cut behind a sign for kelvin where no aside is open. -/
structure Missed (early later : List (List Char)) : Prop where
  cut : CutBehindKelvin early.flatten later.flatten
  outside : (asideMarkers.feeds .initial early).2.opened = none

theorem run_of_not_missed {chunks : List (List Char)} (h : ∀ early later, chunks = early ++ later → ¬Missed early later) :
    asideMarkers.run chunks = asideMarkers.hide chunks.flatten := by
  have hcuts : asideMarkers.RecognisesCuts AsideStart .initial chunks [] := by
    intro early later heq outside
    rw [List.append_nil]
    exact recognises_of_not_cut fun cut => h early later heq ⟨cut, outside⟩
  exact asideMarkers_delimited.runFrom_eq (Markers.drained_initial _) hcuts

theorem run_singleton (text : List Char) : asideMarkers.run [text] = asideMarkers.hide text := by
  have hcuts : ∀ early later, [text] = early ++ later → ¬Missed early later := by
    intro early later heq missed
    obtain ⟨a, b, closing, -, hk, hb, ha, hlater⟩ := missed.cut
    rcases List.singleton_eq_append_iff.mp heq with ⟨rfl, -⟩ | ⟨-, rfl⟩
    · rw [List.flatten_nil, List.suffix_nil] at ha
      subst ha
      cases hk
    · exact hb (List.prefix_nil.mp hlater)
  rw [run_of_not_missed hcuts, List.flatten_singleton]

theorem Missed.run_append {early later : List (List Char)} (h : Missed early later) :
    asideMarkers.run (early ++ later) = asideMarkers.run early ++ asideMarkers.run later := by
  refine Markers.run_append_of_initial ?_ later
  have hsuffix : (asideMarkers.feeds .initial early).2.buffer <:+ early.flatten := asideMarkers.feeds_suffix .initial early
  rcases asideMarkers.feeds_held (s := .initial) (fun _ => Or.inl rfl) early h.outside with hnil | hcould
  · have houtside := h.outside
    generalize (asideMarkers.feeds .initial early).2 = s at hnil houtside ⊢
    obtain ⟨opened, buffer⟩ := s
    obtain rfl : opened = none := houtside
    obtain rfl : buffer = [] := hnil
    rfl
  · rw [show asideMarkers.couldStart = couldBeAside from rfl, h.cut.not_couldBeAside hsuffix] at hcould
    cases hcould

/-- A text in one piece is shown without its asides, and so is a text in chunks of which none but those inside asides
    ends behind a sign for kelvin in a start mark. After another such chunk the stream goes on as a new one. -/
theorem run_asides (chunks : List (List Char)) :
    asideMarkers.run [chunks.flatten] = asideMarkers.hide chunks.flatten ∧
      (∀ out, Shown AsideStart AsideStop chunks.flatten out ↔ out = asideMarkers.hide chunks.flatten) ∧
      ((∀ early later, chunks = early ++ later → ¬Missed early later) →
        asideMarkers.run chunks = asideMarkers.hide chunks.flatten) ∧
      ∀ early later, chunks = early ++ later → Missed early later →
        asideMarkers.run chunks = asideMarkers.run early ++ asideMarkers.run later := by
  refine ⟨run_singleton _, fun out => asideMarkers_delimited.shown_iff, run_of_not_missed, ?_⟩
  rintro early later rfl missed
  exact missed.run_append

/-- A start mark with a sign for kelvin that is cut behind the sign. -/
def cutAside : List Char × List Char := ("a [thin\u212a".toList, "ing b] c".toList)

theorem missed_cutAside : Missed [cutAside.1] [cutAside.2] := by
  refine ⟨⟨"[thin\u212a".toList, "ing".toList, ']', ?_, by decide, by decide, by decide, by decide⟩, ?_⟩
  · refine ⟨'[', "thinking".toList, "thin\u212aing".toList, by decide, by decide, rfl, ?_⟩
    exact .cons rfl (.cons rfl (.cons rfl (.cons rfl (.cons rfl (.cons rfl (.cons rfl (.cons rfl .nil)))))))
  · show (asideMarkers.drain none cutAside.1).2.opened = none
    rw [Markers.drain_of_none rfl]

theorem run_asides_cutAside :
    (∀ early later, ["a [thin".toList, "\u212aing b] c".toList] = early ++ later → ¬Missed early later) ∧
      asideMarkers.run ["a [thin".toList, "\u212aing b] c".toList] = asideMarkers.hide "a [thin\u212aing b] c".toList ∧
      Missed [cutAside.1] [cutAside.2] ∧
      asideMarkers.run [cutAside.1, cutAside.2] = asideMarkers.run [cutAside.1] ++ asideMarkers.run [cutAside.2] := by
  have h : ∀ early later, ["a [thin".toList, "\u212aing b] c".toList] = early ++ later → ¬Missed early later := by
    intro early later heq missed
    obtain ⟨a, b, closing, -, hk, hb, ha, hlater⟩ := missed.cut
    have hk := ha.subset hk
    rcases early with _ | ⟨x, _ | ⟨y, early⟩⟩
    · cases hk
    · obtain ⟨rfl, -⟩ := List.cons.inj heq
      exact absurd hk (by decide)
    · have hnil : later = [] := by
        have := congrArg List.length heq
        simp only [List.length_append, List.length_cons, List.length_nil] at this
        exact List.length_eq_zero_iff.mp (by omega)
      rw [hnil] at hlater
      exact hb (List.prefix_nil.mp hlater)
  exact ⟨h, (run_asides _).2.2.1 h, missed_cutAside, (run_asides _).2.2.2 _ _ rfl missed_cutAside⟩

/-- This aside is shown, although it is none of the text in one piece. -/
theorem cutAside_shown :
    asideMarkers.run [cutAside.1, cutAside.2] = "a [thin\u212aing b] c".toList ∧
      asideMarkers.run [cutAside.1 ++ cutAside.2] = "a  c".toList := by
  constructor
  · rw [← List.singleton_append, missed_cutAside.run_append, run_singleton, run_singleton, Markers.hide_of_none rfl,
      Markers.hide_of_none rfl]
    rfl
  · have found : asideMarkers.start.search (cutAside.1 ++ cutAside.2) =
        some ⟨⟨']', "[thin\u212aing".toList, " b] c".toList⟩, "a ".toList⟩ := rfl
    have closed : (asideMarkers.stop ']').search " b] c".toList = some ⟨⟨(), "]".toList, " c".toList⟩, " b".toList⟩ := rfl
    rw [run_singleton, Markers.hide_of_some found, Markers.hideFrom_of_some closed, Markers.hideFrom,
      Markers.hide_of_none rfl]
    rfl

end ToolScript.Stream
