import ToolScript.Proofs.Markup.Tags
import ToolScript.Proofs.Stream.Hiding
import ToolScript.Stream.Script

/-! # Scripts hidden in chunks

    The marks of scripts of both generations are lawful, so what is shown of a stream with scripts in it is what
    `hide` leaves of the text, however the stream is cut. -/

namespace ToolScript.Stream
open Text Text.Pattern Markup

/-- What begins a script: the mark of the first generation as it is written, or an opening tag. -/
def ScriptStart (t : List Char) (_ : Unit) : Prop :=
  t = legacyStart ∨ ∃ tag, TagMark ['<'] t tag

/-- What ends a script of either generation. -/
def ScriptStop (t : List Char) (_ : Unit) : Prop :=
  t = legacyEnd ∨ ∃ tag, TagMark ['<', '/'] t tag

/-! ### The patterns -/

theorem ne_tag_append {mark t r r' bracket : List Char} {tag : Tag} (hmark : mark.head? = some '[')
    (ht : TagMark ('<' :: bracket) t tag) : mark ++ r ≠ t ++ r' := by
  intro h
  have := congrArg List.head? h
  rw [List.head?_append_of_ne_nil _ (by rintro rfl; cases hmark), hmark, ht.1] at this
  simp at this

theorem scriptStart_spells : scriptStart.Spells ScriptStart := by
  refine ((exactly_spells (by decide)).or (openTag_spells.map fun _ => ()) ?_).congr fun t _ => ?_
  · rintro t _ t' _ r r' rfl ⟨tag, ht, -⟩
    exact ne_tag_append rfl ht
  · simp [ScriptStart]

theorem scriptStop_spells : scriptStop.Spells ScriptStop := by
  refine ((exactly_spells (by decide)).or (closeTag_spells.map fun _ => ()) ?_).congr fun t _ => ?_
  · rintro t _ t' _ r r' rfl ⟨tag, ht, -⟩
    exact ne_tag_append rfl ht
  · simp [ScriptStop]

/-! ### Marks do not begin inside each other -/

theorem tag_apart {bracket t t' a b : List Char} {tag tag' : Tag} (hb : '<' ∉ bracket) (ht : TagMark ('<' :: bracket) t tag)
    (ht' : TagMark ('<' :: bracket) t' tag') (h : t = a ++ (t' ++ b)) : a = [] := by
  exact eq_nil_of_not_mem_tail (ht.not_mem_tail hb) (by rw [ht'.1]; rfl) h

theorem square_not_mem_tag {bracket t : List Char} {tag : Tag} (hb : '[' ∉ bracket) (ht : TagMark ('<' :: bracket) t tag) :
    '[' ∉ t := by
  have hname := ht.not_mem (c := '[') (by decide) (by decide) (by decide)
  rw [ht.1]
  intro h
  rcases List.mem_append.mp h with h | h
  · rcases List.mem_cons.mp h with h | h
    · cases h
    · exact hb h
  · exact hname h

theorem script_apart {mark bracket : List Char} (hmark : mark.head? = some '[') (hlt : '<' ∉ mark)
    (hb : '<' ∉ bracket) (hb' : '[' ∉ bracket) :
    Apart fun t (_ : Unit) => t = mark ∨ ∃ tag, TagMark ('<' :: bracket) t tag := by
  rintro t _ t' _ a b (rfl | ⟨tag, ht⟩) (rfl | ⟨tag', ht'⟩) h
  · have := congrArg List.length h
    simp only [List.length_append] at this
    exact List.length_eq_zero_iff.mp (by omega)
  · refine absurd ?_ hlt
    rw [h, ht'.1]
    simp
  · refine absurd ?_ (square_not_mem_tag hb' ht)
    obtain ⟨x, rfl⟩ := List.head?_eq_some_iff.mp hmark
    rw [h]
    simp
  · exact tag_apart hb ht ht' h

/-- Marks of scripts do not reach into each other, if the one without a tag does not reach into itself. -/
theorem script_unreached {mark bracket t : List Char} (hself : ∀ y ∈ mark.tail.tails, y ≠ [] → ¬y <+: mark)
    (hmark : mark.head? = some '[') (hlt : '<' ∉ mark) (hb : '<' ∉ bracket) (hb' : '[' ∉ bracket)
    (ht : t = mark ∨ ∃ tag, TagMark ('<' :: bracket) t tag) :
    Unreached (fun t (_ : Unit) => t = mark ∨ ∃ tag, TagMark ('<' :: bracket) t tag) t := by
  rcases ht with rfl | ⟨tag, ht⟩
  · refine .or (.of_self fun y hy => hself y ((List.mem_tails _ _).mpr hy)) (.of_not_mem (c := '[') ?_ hmark)
    rintro x _ ⟨tag, hx⟩
    exact square_not_mem_tag hb' hx
  · have hhead : t.head? = some '<' := by rw [ht.1]; rfl
    refine .or (.of_not_mem (c := '<') ?_ hhead) (.of_head (c := '<') ?_ hhead)
    · rintro x _ rfl
      exact hlt
    · rintro x _ ⟨tag, hx⟩
      exact hx.not_mem_tail hb

theorem start_unreached {t : List Char} (ht : ScriptStart t ()) : Unreached ScriptStart t :=
  script_unreached (by decide) rfl (by decide) (by simp) (by simp) ht

theorem stop_unreached {t : List Char} (ht : ScriptStop t ()) : Unreached ScriptStop t :=
  script_unreached (by decide) rfl (by decide) (by simp) (by simp) ht

/-- The end mark after a text without end marks is the first. -/
theorem first_stop {body mark : List Char} (hmark : ScriptStop mark ()) (hfree : ∀ t, ScriptStop t () → ¬t <:+: body)
    (rest : List Char) : First ScriptStop (body ++ (mark ++ rest)) body mark () rest := by
  refine (first_append_iff ?_ stop_unreached).mpr ⟨hmark, fun t _ => hfree t⟩
  rintro t _ (rfl | ⟨tag, ht⟩)
  · decide
  · simp [ht.1]

/-- No end of the first start mark is comparable with the first end mark. -/
theorem legacy_ends_apart : ∀ x ∈ legacyStart.tails, x ≠ [] → ¬x <+: legacyEnd ∧ ¬legacyEnd <+: x := by
  decide

/-- No end mark begins within a start mark. -/
theorem stop_after_start {t t' a b r : List Char} (ht : ScriptStart t ()) (ht' : ScriptStop t' ())
    (h : t ++ r = a ++ (t' ++ b)) : t.length ≤ a.length := by
  refine Nat.le_of_not_lt fun hlt => ?_
  obtain ⟨x, hx, rfl, hend⟩ := exists_end_of_length_lt h hlt
  -- The end mark begins with the character of the start mark at which `x` begins.
  rcases ht' with rfl | ⟨tag', ht'⟩
  · rcases ht with ht | ⟨tag, ht⟩
    · have hends := legacy_ends_apart x ((List.mem_tails _ _).mpr ⟨a, ht⟩) hx
      have hpre : legacyEnd <+: x ++ r := ⟨b, hend.symm⟩
      exact (List.prefix_or_prefix_of_prefix (List.prefix_append x r) hpre).elim hends.1 hends.2
    · have hc : '[' ∈ x := mem_of_append_eq_cons hx hend
      exact square_not_mem_tag (by simp) ht (List.mem_append_right a hc)
  · have hc : '<' ∈ x := by
      rw [ht'.1] at hend
      exact mem_of_append_eq_cons hx hend
    rcases ht with ht | ⟨tag, ht⟩
    · have hmem : '<' ∈ legacyStart := ht ▸ List.mem_append_right a hc
      exact absurd hmem (by decide)
    · have hopen : '<' ∉ tag.name ++ ['>'] := ht.not_mem (by decide) (by decide) (by decide)
      cases a with
      | cons d a =>
        have htail : a ++ x = tag.name ++ ['>'] := (List.cons.inj ht.1).2
        exact hopen (htail ▸ List.mem_append_right a hc)
      | nil =>
        obtain rfl : x = '<' :: (tag.name ++ ['>']) := ht.1
        rw [ht'.1] at hend
        have hslash : '/' ∈ tag.name ++ ['>'] :=
          mem_of_append_eq_cons (by simp) (List.cons.inj hend).2
        exact absurd hslash (ht.not_mem (by decide) (by decide) (by decide))

/-! ### Beginnings of start marks -/

theorem couldBeTag_iff {a : List Char} : couldBeTag a = true ↔
    (a.take 4).map Char.toLower = ['<', 'n', 'i', 't'].take a.length ∧
      (a.drop 4 = [] ∨ ∃ digits, a.drop 4 = '-' :: digits ∧ digits.length ≤ 4 ∧ ∀ c ∈ digits, isHexDigit c = true) := by
  simp only [couldBeTag, Bool.and_eq_true, beq_iff_eq]
  refine and_congr_right fun _ => ?_
  split
  · rename_i hd
    simp [hd]
  · rename_i digits hd
    simp [hd]
  · rename_i hnil hhyphen
    refine ⟨fun h => (by cases h), ?_⟩
    rintro (hd | ⟨digits, hd, -⟩)
    · exact absurd hd hnil
    · exact absurd hd (hhyphen digits)

theorem couldBeTag_of_append {t a b : List Char} {tag : Tag} (ht : TagMark ['<'] t tag) (h : t = a ++ b) (hb : b ≠ []) :
    couldBeTag a = true := by
  obtain ⟨name⟩ := tag
  obtain ⟨rfl, digits, hname⟩ := ht
  have hlen : a.length ≤ ('<' :: name).length := by
    have := congrArg List.length h
    have := List.length_pos_iff.mpr hb
    simp only [List.length_append, List.length_cons, List.length_nil] at *
    omega
  have ha : a <+: '<' :: name := List.prefix_of_prefix_length_le ⟨b, h.symm⟩ ⟨['>'], by simp⟩ hlen
  -- The name is a word of three letters and what may follow it.
  obtain ⟨word, rest, heq, hword, hrest⟩ : ∃ word rest, name = word ++ rest ∧
      word.map Char.toLower = ['n', 'i', 't'] ∧
        (rest = [] ∨ ∃ ds, rest = '-' :: ds ∧ ds.length ≤ 4 ∧ ∀ c ∈ ds, isHexDigit c = true) := by
    cases hname with
    | plain hw => exact ⟨_, [], by simp, hw, Or.inl rfl⟩
    | numbered hw hfour hd => exact ⟨_, _, rfl, hw, Or.inr ⟨_, rfl, Nat.le_of_eq hfour, hd⟩⟩
  have hfour : ('<' :: word).length = 4 := by simp [(isAlpha_of_word hword).1]
  rw [heq, ← List.cons_append] at ha
  have hwhole := List.prefix_iff_eq_take.mp ha
  have htake : a.take 4 = ('<' :: word).take a.length := by
    conv => lhs; rw [hwhole]
    rw [List.take_take, Nat.min_comm, ← List.take_take, List.take_left' hfour]
  have hdrop : a.drop 4 = rest.take (a.length - 4) := by
    conv => lhs; rw [hwhole]
    rw [List.drop_take, List.drop_left' hfour]
  refine couldBeTag_iff.mpr ⟨?_, ?_⟩
  · rw [htake, List.map_take, List.map_cons, hword]
    rfl
  · rw [hdrop]
    rcases hrest with rfl | ⟨ds, rfl, hlen, hd⟩
    · exact Or.inl List.take_nil
    · cases hk : a.length - 4 with
      | zero => exact Or.inl rfl
      | succ k =>
        refine Or.inr ⟨ds.take k, rfl, ?_, fun c hc => hd c (List.mem_of_mem_take hc)⟩
        rw [List.length_take]
        omega

theorem couldStart_of_append {t a b : List Char} (ht : ScriptStart t ()) (h : t = a ++ b) (hb : b ≠ []) :
    scriptMarkers.couldStart a = true := by
  rcases ht with rfl | ⟨tag, ht⟩
  · exact Bool.or_eq_true_iff.mpr (Or.inl (List.isPrefixOf_iff_prefix.mpr ⟨b, h.symm⟩))
  · exact Bool.or_eq_true_iff.mpr (Or.inr (couldBeTag_of_append ht h hb))

theorem utf8Size_start_le {t : List Char} (ht : ScriptStart t ()) : utf8Size t ≤ scriptMarkers.maxStart := by
  rcases ht with rfl | ⟨tag, ht⟩
  · decide
  · rw [ht.utf8Size_eq (by simp)]
    exact Nat.le_trans ht.length_le (by decide)

theorem utf8Size_stop_le {t : List Char} (ht : ScriptStop t ()) : utf8Size t ≤ scriptMarkers.maxStop := by
  rcases ht with rfl | ⟨tag, ht⟩
  · decide
  · rw [ht.utf8Size_eq (by simp)]
    exact Nat.le_trans ht.length_le (by decide)

theorem scriptMarkers_lawful : scriptMarkers.Lawful ScriptStart fun _ => ScriptStop where
  starts := scriptStart_spells
  stops _ := scriptStop_spells
  startsApart := script_apart rfl (by decide) (by simp) (by simp)
  stopsApart _ := script_apart rfl (by decide) (by simp) (by simp)
  stopAfterStart := stop_after_start
  couldStart ht h _ hb := couldStart_of_append ht h hb
  startSize := utf8Size_start_le
  stopSize _ ht _ := utf8Size_stop_le ht

/-- However a text is cut, a new or flushed filter shows in all what `hide` leaves of it, which is what the marks
    say; and what it has shown at any time is the beginning of that, whatever is still to come. -/
theorem run_scripts_eq_hide (used : State Unit) (chunks : List (List Char)) :
    scriptMarkers.run chunks = scriptMarkers.hide chunks.flatten ∧
      scriptMarkers.runFrom (Markers.flush used).2 chunks = scriptMarkers.hide chunks.flatten ∧
      (∀ out, Shown ScriptStart (fun _ => ScriptStop) chunks.flatten out ↔ out = scriptMarkers.hide chunks.flatten) ∧
      ∀ later, (scriptMarkers.feeds .initial chunks).1 <+: scriptMarkers.hide (chunks.flatten ++ later) := by
  have hrun := scriptMarkers_lawful.runFrom_eq scriptMarkers.drained_initial chunks
  exact ⟨hrun, hrun, fun _ => scriptMarkers_lawful.shown_iff, scriptMarkers_lawful.feeds_prefix chunks⟩

end ToolScript.Stream
