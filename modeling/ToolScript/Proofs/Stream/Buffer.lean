import ToolScript.Proofs.Stream.Elements
import ToolScript.Proofs.Stream.Scripts

/-! # What a filter keeps of a stream

    Outside of blocks a filter keeps the longest end of the text that begins a start mark, and shows all the rest; inside
    of a block it keeps as many bytes as an end mark may have, and two more at most. What it keeps depends on the text it
    has read since it was new, and not on how the text was cut (`drain_append`). This holds of a family of which the
    filter recognises the beginnings of start marks and nothing else (`Exact`). -/

namespace ToolScript.Text

/-- The longest end of a text of which `P` holds, or the empty text where it holds of none. -/
structure LongestEnd (P : List Char → Prop) (s b : List Char) : Prop where
  suffix : b <:+ s
  holds : b = [] ∨ P b
  longest : ∀ b', b' <:+ s → P b' → b'.length ≤ b.length

theorem LongestEnd.unique {P : List Char → Prop} {s b b' : List Char} (h : LongestEnd P s b) (h' : LongestEnd P s b') :
    b = b' := by
  have hle : ∀ {b b'}, LongestEnd P s b → LongestEnd P s b' → b.length ≤ b'.length := fun {b b'} h h' => by
    rcases h.holds with rfl | hb
    · exact Nat.zero_le _
    · exact h'.longest b h.suffix hb
  exact (List.suffix_of_suffix_length_le h.suffix h'.suffix (hle h h')).eq_of_length (Nat.le_antisymm (hle h h') (hle h' h))

end ToolScript.Text

namespace ToolScript.Stream
open Text Text.Pattern Markup

variable {Open : Type} {S : List Char → Open → Prop} {E : Open → List Char → Unit → Prop}

/-- A text that begins a start mark and is no whole one. -/
def Begins (S : List Char → Open → Prop) (b : List Char) : Prop :=
  b ≠ [] ∧ ∃ r o, r ≠ [] ∧ S (b ++ r) o

theorem Begins.of_append {b c : List Char} (h : Begins S (b ++ c)) (hb : b ≠ []) : Begins S b := by
  obtain ⟨-, r, o, hr, hmark⟩ := h
  rw [List.append_assoc] at hmark
  exact ⟨hb, c ++ r, o, by simp [hr], hmark⟩

/-- What is open at the end of a text, and the part of the text after the last block in it that is closed, or after the
    start mark of the block that is open. -/
inductive EndsIn (S : List Char → Open → Prop) (E : Open → List Char → Unit → Prop) :
    List Char → Option Open → List Char → Prop
  | outside {s : List Char} (h : Free S s) : EndsIn S E s none s
  | inside {s before mark rest : List Char} {o : Open} (start : First S s before mark o rest) (h : Free (E o) rest) :
      EndsIn S E s (some o) rest
  | later {s before mark rest body mark' rest' t : List Char} {o : Open} {opened : Option Open}
      (start : First S s before mark o rest) (stop : First (E o) rest body mark' () rest')
      (h : EndsIn S E rest' opened t) : EndsIn S E s opened t

namespace Markers
variable {m : Markers Open}

/-- The states a filter comes to, with the text it has read and what it has shown of it since it was new or flushed. -/
inductive Reached (m : Markers Open) : State Open → List Char → List Char → Prop
  | initial : Reached m .initial [] []
  | feed {s : State Open} {text out : List Char} (h : Reached m s text out) (chunk : List Char) :
      Reached m (m.feed s chunk).2 (text ++ chunk) (out ++ (m.feed s chunk).1)
  | flush {s : State Open} {text out : List Char} (h : Reached m s text out) : Reached m (Markers.flush s).2 [] []

/-- What a filter keeps of a text: outside of blocks the longest end of the text since the last block that begins a start
    mark, inside of a block no more than an end mark may have, and two bytes. -/
inductive Keeps (m : Markers Open) (S : List Char → Open → Prop) (E : Open → List Char → Unit → Prop) :
    State Open → List Char → Prop
  | outside {text t b : List Char} (ends : EndsIn S E text none t) (held : LongestEnd (Begins S) t b) :
      Keeps m S E ⟨none, b⟩ text
  | inside {text t b : List Char} {o : Open} (ends : EndsIn S E text (some o) t) (size : utf8Size b ≤ m.maxStop + 2) :
      Keeps m S E ⟨some o, b⟩ text

/-- A filter that has shown `out` of a text keeps as little of it as it can. -/
structure KeepsLeast (m : Markers Open) (S : List Char → Open → Prop) (E : Open → List Char → Unit → Prop) (s : State Open)
    (text out : List Char) : Prop where
  keeps : Keeps m S E s text
  /-- All that is to be shown of the text has been shown, but for less than a start mark. -/
  prompt : ∃ late, m.hide text = out ++ late ∧ utf8Size late ≤ m.maxStart - 1
  bounded : utf8Size s.buffer ≤ max (m.maxStart - 1) (m.maxStop + 2)

/-- A lawful family of which the filter recognises beginnings of start marks only. -/
structure Exact (m : Markers Open) (S : List Char → Open → Prop) (E : Open → List Char → Unit → Prop) : Prop
    extends Lawful m S E where
  exists_mark : ∀ {a}, a ≠ [] → m.couldStart a = true → ∃ r o, S (a ++ r) o

/-! ### The tail of a block -/

theorem lastBytes_append {n : Nat} {s : List Char} (h : n ≤ utf8Size s) (a : List Char) :
    lastBytes n (a ++ s) = lastBytes n s := by
  induction a with
  | nil => rfl
  | cons c a ih =>
    have hle : n ≤ utf8Size (a ++ s) := by
      rw [utf8Size_append]
      omega
    rw [List.cons_append, lastBytes, if_pos hle, ih]

theorem lastBytes_lastBytes_append (n : Nat) (s u : List Char) :
    lastBytes n (lastBytes n s ++ u) = lastBytes n (s ++ u) := by
  rcases Nat.lt_or_ge (utf8Size s) n with hlt | hge
  · rw [lastBytes_of_lt hlt]
  · obtain ⟨a, ha⟩ := lastBytes_suffix n s
    have hlong : n ≤ utf8Size (lastBytes n s ++ u) := by
      have := le_utf8Size_lastBytes hge
      rw [utf8Size_append]
      omega
    conv => rhs; rw [← ha, List.append_assoc, lastBytes_append hlong]

/-- Shortest ends of a text have less than a character too much. -/
theorem utf8Size_lastBytes_le (n : Nat) (s : List Char) : utf8Size (lastBytes n s) ≤ n + 3 := by
  induction s with
  | nil => exact Nat.zero_le _
  | cons c s ih =>
    rw [lastBytes]
    split
    · exact ih
    · have := c.utf8Size_le_four
      rw [utf8Size_cons]
      omega

theorem blockTail_eq_lastBytes (m : Markers Open) (s : List Char) : m.blockTail s = lastBytes (m.maxStop - 1) s := by
  rw [blockTail]
  rcases Nat.lt_or_ge (utf8Size (lastChars (m.maxStop - 1) s)) (m.maxStop - 1) with hlt | hge
  · have hlen := length_le_utf8Size (lastChars (m.maxStop - 1) s)
    rw [length_lastChars] at hlen
    rw [(lastChars_suffix _ s).eq_of_length (by rw [length_lastChars]; omega)]
  · obtain ⟨a, ha⟩ := lastChars_suffix (m.maxStop - 1) s
    conv => rhs; rw [← ha, lastBytes_append hge]

theorem blockTail_blockTail_append (m : Markers Open) (s u : List Char) :
    m.blockTail (m.blockTail s ++ u) = m.blockTail (s ++ u) := by
  simp only [blockTail_eq_lastBytes, lastBytes_lastBytes_append]

theorem utf8Size_blockTail_le (m : Markers Open) (s : List Char) : utf8Size (m.blockTail s) ≤ m.maxStop + 2 := by
  rw [blockTail_eq_lastBytes]
  rcases Nat.eq_zero_or_pos m.maxStop with h | h
  · have hnil : ∀ s, lastBytes 0 s = [] := by
      intro s
      induction s with
      | nil => rfl
      | cons c s ih => rw [lastBytes, if_pos (Nat.zero_le _), ih]
    simp [h, hnil]
  · have := utf8Size_lastBytes_le (m.maxStop - 1) s
    omega

/-! ### Feeding one text after another -/

theorem drain_of_some {s : List Char} {h : Hit Open} (found : m.start.search s = some h) :
    m.drain none s = (h.before ++ (m.drain (some h.value) (h.text ++ h.rest)).1,
      (m.drain (some h.value) (h.text ++ h.rest)).2) := by
  conv => lhs; rw [drain]
  split
  · rename_i hn
    rw [found] at hn
    cases hn
  · rename_i k found'
    rw [found] at found'
    cases found'
    rfl

theorem drain_inside_of_none {o : Open} {s : List Char} (h : (m.stop o).search s = none) :
    m.drain (some o) s = ([], ⟨some o, m.blockTail s⟩) := by
  rw [drain]
  split
  · rfl
  · rename_i k found
    rw [h] at found
    cases found

theorem drain_inside_of_some {o : Open} {s : List Char} {h : Hit Unit} (found : (m.stop o).search s = some h) :
    m.drain (some o) s = m.drain none h.rest := by
  rw [drain]
  split
  · rename_i hn
    rw [found] at hn
    cases hn
  · rename_i k found'
    rw [found] at found'
    cases found'
    rfl

/-- What is held back of a text without start marks is the longest end that begins one. -/
theorem Exact.longestEnd_heldBack (L : m.Exact S E) {s : List Char} (hs : m.start.search s = none) :
    LongestEnd (Begins S) s (m.heldBack s) where
  suffix := heldBack_suffix m s
  holds := by
    by_cases hnil : m.heldBack s = []
    · exact Or.inl hnil
    · obtain ⟨r, o, hmark⟩ := L.exists_mark hnil ((heldFrom_eq_nil_or m _).resolve_left hnil)
      refine Or.inr ⟨hnil, r, o, ?_, hmark⟩
      rintro rfl
      obtain ⟨a, ha⟩ := heldBack_suffix m s
      rw [List.append_nil] at hmark
      exact L.starts.search_eq_none_iff.mp hs a (m.heldBack s) o [] (by rw [List.append_nil, ha]) hmark
  longest b hb hbegins := by
    obtain ⟨hne, r, o, hr, hmark⟩ := hbegins
    obtain ⟨hsize, hcould⟩ := L.recognises b r hmark hne hr List.suffix_rfl List.prefix_rfl
    exact length_le_heldBack hb hsize hcould

/-- A text in which no start mark begins is shown, if nothing of it is held back. -/
theorem drain_append_of_heldBack {a s : List Char} (hn : ∀ b, b <:+ a → b ≠ [] → m.start.match? (b ++ s) = none)
    (hheld : m.start.search s = none → m.heldBack (a ++ s) = m.heldBack s) :
    m.drain none (a ++ s) = (a ++ (m.drain none s).1, (m.drain none s).2) := by
  have hs := search_append a hn
  cases h : m.start.search s with
  | none =>
    rw [h, Option.map_none] at hs
    have hle := (heldBack_suffix m s).length_le
    rw [drain_of_none hs, drain_of_none h, hheld h, List.length_append, Nat.add_sub_assoc hle, List.take_length_add_append]
  | some k =>
    rw [h, Option.map_some] at hs
    rw [drain_of_some hs, drain_of_some h, List.append_assoc]

/-- Hidden text before the tail of a block changes nothing. -/
theorem drain_inside_append {o : Open} {a s : List Char} (hn : ∀ b, b <:+ a → b ≠ [] → (m.stop o).match? (b ++ s) = none)
    (htail : m.blockTail (a ++ s) = m.blockTail s) : m.drain (some o) (a ++ s) = m.drain (some o) s := by
  have hs := search_append a hn
  cases h : (m.stop o).search s with
  | none =>
    rw [h, Option.map_none] at hs
    rw [drain_inside_of_none hs, drain_inside_of_none h, htail]
  | some k =>
    rw [h, Option.map_some] at hs
    rw [drain_inside_of_some hs, drain_inside_of_some h]

/-- What is held back of a text is enough to tell what is held back of a longer one. -/
theorem Exact.heldBack_append (L : m.Exact S E) {s a u : List Char} (hs : m.start.search s = none)
    (ha : s = a ++ m.heldBack s) (hu : m.start.search (m.heldBack s ++ u) = none) :
    m.heldBack (a ++ (m.heldBack s ++ u)) = m.heldBack (m.heldBack s ++ u) := by
  have hn := search_append a fun b hb hne => L.match?_before_heldBack hs ha (L.recognises s u) hb hne
  rw [hu, Option.map_none] at hn
  refine (L.longestEnd_heldBack hn).unique ?_
  have hheld := L.longestEnd_heldBack hu
  refine ⟨hheld.suffix.trans (List.suffix_append a _), hheld.holds, fun b hb hbegins => ?_⟩
  rcases Nat.lt_or_ge (m.heldBack s ++ u).length b.length with hlt | hle
  · -- The part of `b` that is in `s` begins the same mark, so it would have been held back.
    obtain ⟨x, rfl⟩ := List.suffix_of_suffix_length_le (List.suffix_append a _) hb (Nat.le_of_lt hlt)
    obtain ⟨z, hz⟩ := hb
    rw [← List.append_assoc] at hz
    have hx : x ++ m.heldBack s <:+ s := by
      refine ⟨z, ?_⟩
      rw [← List.append_assoc, List.append_cancel_right hz, ← ha]
    rw [← List.append_assoc] at hbegins
    have hne : x ≠ [] := by
      rintro rfl
      simp at hlt
    have hle := (L.longestEnd_heldBack hs).longest _ hx (hbegins.of_append (by simp [hne]))
    rw [List.length_append] at hle
    exact absurd (List.length_eq_zero_iff.mp (by omega)) hne
  · exact hheld.longest b (List.suffix_of_suffix_length_le hb (List.suffix_append a _) hle) hbegins

/-- The filter goes on from what it has kept as from the whole text. -/
theorem Exact.drain_append (L : m.Exact S E) {opened : Option Open} (ho : ∀ o, opened = some o → ∃ t, S t o)
    (buffer u : List Char) :
    m.drain opened (buffer ++ u) =
      ((m.drain opened buffer).1 ++ (m.feed (m.drain opened buffer).2 u).1, (m.feed (m.drain opened buffer).2 u).2) := by
  fun_induction m.drain opened buffer with
  | case1 buffer o h =>
    obtain ⟨a, ha⟩ := blockTail_suffix m buffer
    have hbuffer : buffer ++ u = a ++ (m.blockTail buffer ++ u) := by rw [← List.append_assoc, ha]
    have htail : m.blockTail (a ++ (m.blockTail buffer ++ u)) = m.blockTail (m.blockTail buffer ++ u) := by
      rw [← hbuffer, blockTail_blockTail_append]
    rw [hbuffer, drain_inside_append (fun b hb hne => L.match?_before_blockTail (ho o rfl) h ha.symm hb hne) htail]
    rfl
  | case2 buffer o h found ih =>
    rw [drain_inside_of_some ((L.stops o).search_append_of_some (L.stopsApart o) found u)]
    exact ih (by simp)
  | case3 buffer h held =>
    obtain ⟨a, ha⟩ := heldBack_suffix m buffer
    have hbuffer : buffer ++ u = a ++ (m.heldBack buffer ++ u) := by rw [← List.append_assoc, ha]
    have hlen : a.length = buffer.length - held.length := by
      have := congrArg List.length ha
      rw [List.length_append] at this
      show a.length = buffer.length - (m.heldBack buffer).length
      omega
    have htake : buffer.take (buffer.length - held.length) = a := by
      rw [← hlen, ← ha, List.take_left]
    rw [htake, hbuffer, drain_append_of_heldBack
      (fun b hb hne => L.match?_before_heldBack h ha.symm (L.recognises _ _) hb hne) (L.heldBack_append h ha.symm)]
    rfl
  | case4 buffer h found out state heq ih =>
    have hopened : ∀ o, some h.value = some o → ∃ t, S t o := by
      rintro o ⟨⟩
      exact ⟨h.text, (L.starts.search_eq_some_iff.mp found).mark⟩
    have ih := ih hopened
    rw [heq, List.append_assoc] at ih
    rw [drain_of_some (L.starts.search_append_of_some L.startsApart found u), ih, List.append_assoc]

/-! ### Reached states -/

theorem drain_nil (m : Markers Open) : m.drain none [] = ([], .initial) := by
  have hheld : m.heldBack [] = [] := List.suffix_nil.mp (heldBack_suffix m [])
  rw [drain_of_none (search_nil m.start), hheld]
  rfl

theorem Exact.drain_eq (L : m.Exact S E) {s : State Open} {text out : List Char} (h : m.Reached s text out) :
    m.drain none text = (out, s) := by
  induction h with
  | initial => exact m.drain_nil
  | feed h chunk ih =>
    rw [L.drain_append (by simp), ih]
  | flush h ih => exact m.drain_nil

theorem Keeps.later {s : State Open} {text before mark rest body mark' rest' : List Char} {o : Open}
    (start : First S text before mark o rest) (stop : First (E o) rest body mark' () rest') (h : Keeps m S E s rest') :
    Keeps m S E s text := by
  cases h with
  | outside ends held => exact .outside (.later start stop ends) held
  | inside ends size => exact .inside (.later start stop ends) size

theorem Exact.keeps (L : m.Exact S E) (text : List Char) : Keeps m S E (m.drain none text).2 text := by
  induction hn : text.length using Nat.strong_induction_on generalizing text with
  | _ n ih =>
    subst hn
    cases found : m.start.search text with
    | none =>
      rw [drain_of_none found]
      exact .outside (.outside (L.starts.search_eq_none_iff.mp found)) (L.longestEnd_heldBack found)
    | some h =>
      have start := L.starts.search_eq_some_iff.mp found
      -- No end mark begins in the start mark, which the filter still has before it.
      have hmark := search_append (p := m.stop h.value) (s := h.rest) h.text fun b hb hne =>
        L.match?_in_mark start.mark hb hne
      rw [drain_of_some found]
      cases closed : (m.stop h.value).search h.rest with
      | none =>
        rw [closed, Option.map_none] at hmark
        rw [drain_inside_of_none hmark]
        exact .inside (.inside start ((L.stops _).search_eq_none_iff.mp closed)) (utf8Size_blockTail_le m _)
      | some k =>
        rw [closed, Option.map_some] at hmark
        rw [drain_inside_of_some hmark]
        have hlt : k.rest.length < text.length := Nat.lt_trans (rest_length_lt closed) (rest_length_lt found)
        exact (ih _ hlt k.rest rfl).later start ((L.stops _).search_eq_some_iff.mp closed)

theorem Lawful.utf8Size_le_of_begins (L : m.Lawful S E) {b : List Char} (h : Begins S b) : utf8Size b ≤ m.maxStart - 1 := by
  obtain ⟨-, r, o, hr, hmark⟩ := h
  have hsize := L.startSize hmark
  have hpos := List.length_pos_iff.mpr hr
  have := length_le_utf8Size r
  rw [utf8Size_append] at hsize
  omega

/-- What is still to be shown when the stream ends now. -/
theorem Keeps.utf8Size_flush_le (L : m.Lawful S E) {s : State Open} {text : List Char} (h : Keeps m S E s text) :
    utf8Size (Markers.flush s).1 ≤ m.maxStart - 1 := by
  cases h with
  | outside ends held =>
    rcases held.holds with rfl | hbegins
    · exact Nat.zero_le _
    · exact L.utf8Size_le_of_begins hbegins
  | inside ends size => exact Nat.zero_le _

theorem Keeps.utf8Size_buffer_le (L : m.Lawful S E) {s : State Open} {text : List Char} (h : Keeps m S E s text) :
    utf8Size s.buffer ≤ max (m.maxStart - 1) (m.maxStop + 2) := by
  cases h with
  | outside ends held => exact Nat.le_trans ((Keeps.outside ends held).utf8Size_flush_le L) (Nat.le_max_left _ _)
  | inside ends size => exact Nat.le_trans size (Nat.le_max_right _ _)

/-- A filter of an exact family keeps as little as it can. -/
theorem Exact.keepsLeast (L : m.Exact S E) {s : State Open} {text out : List Char} (h : m.Reached s text out) :
    m.KeepsLeast S E s text out := by
  have hdrain := L.drain_eq h
  have hkeeps := L.keeps text
  rw [hdrain] at hkeeps
  have hnone : ∀ o, (none : Option Open) = some o → ∃ t, S t o := by simp
  have hdrained := L.drained_drain hnone text
  have hhide := L.drain_hideFrom hnone fun _ => L.recognises text []
  rw [hdrain] at hdrained hhide
  rw [List.append_nil, List.append_nil, ← flush_eq_hideFrom hdrained] at hhide
  exact ⟨hkeeps, ⟨_, hhide, hkeeps.utf8Size_flush_le L.toLawful⟩, hkeeps.utf8Size_buffer_le L.toLawful⟩

end Markers

/-! ### Scripts and elements -/

/-- A beginning of a tag can be completed to a tag: a missing end of the word and a missing bracket are put behind it, and
    zeros for missing digits. -/
theorem exists_tag_of_couldBeTag {a : List Char} (h : couldBeTag a = true) : ∃ r tag, TagMark ['<'] (a ++ r) tag := by
  obtain ⟨hhead, hrest⟩ := couldBeTag_iff.mp h
  have hwhole : (a.take 4 ++ ['<', 'n', 'i', 't'].drop a.length).map Char.toLower = ['<', 'n', 'i', 't'] := by
    rw [List.map_append, hhead, List.map_drop]
    exact List.take_append_drop _ _
  obtain ⟨c, word, hword, hc, hw⟩ := List.map_eq_cons_iff.mp hwhole
  obtain rfl : c = '<' := eq_of_toLower_eq (by decide) hc
  rcases hrest with hdrop | ⟨digits, hdrop, hlen, hd⟩
  · have ha : a.take 4 = a := by
      conv => rhs; rw [← List.take_append_drop 4 a, hdrop, List.append_nil]
    rw [ha] at hword
    exact ⟨_ ++ ['>'], ⟨word⟩, by rw [← List.append_assoc, hword]; rfl, none, .plain hw⟩
  · have ha : a.take 4 ++ '-' :: digits = a := by rw [← hdrop, List.take_append_drop]
    have hlong : 4 ≤ a.length := by
      have := congrArg List.length hdrop
      simp only [List.length_drop, List.length_cons] at this
      omega
    rw [List.drop_eq_nil_of_le (by simpa using hlong), List.append_nil] at hword
    have hzeros : ∀ d ∈ digits ++ List.replicate (4 - digits.length) '0', isHexDigit d = true := by
      intro d hmem
      rcases List.mem_append.mp hmem with hmem | hmem
      · exact hd d hmem
      · rw [List.eq_of_mem_replicate hmem]
        decide
    refine ⟨List.replicate (4 - digits.length) '0' ++ ['>'],
      ⟨word ++ '-' :: (digits ++ List.replicate (4 - digits.length) '0')⟩, ?_, _, .numbered hw ?_ hzeros⟩
    · conv => lhs; rw [← ha, hword]
      simp
    · simp only [List.length_append, List.length_replicate]
      omega

theorem scriptMarkers_exact : scriptMarkers.Exact ScriptStart fun _ => ScriptStop where
  toLawful := scriptMarkers_lawful
  exists_mark := by
    intro a _ hcould
    rcases Bool.or_eq_true_iff.mp hcould with hcould | hcould
    · obtain ⟨r, hr⟩ := List.isPrefixOf_iff_prefix.mp hcould
      exact ⟨r, (), Or.inl hr⟩
    · obtain ⟨r, tag, htag⟩ := exists_tag_of_couldBeTag hcould
      exact ⟨r, (), Or.inr ⟨tag, htag⟩⟩

theorem elementMarkers_exact {names : List String} (h : ∀ name ∈ names, Bracketless (trim name.toList)) :
    (elementMarkers (elementNames names)).Exact (ElementStart names) ElementStop where
  toLawful := elementMarkers_lawful h
  exists_mark := by
    intro a _ hcould
    obtain ⟨name, hname, hpre⟩ := List.any_eq_true.mp hcould
    obtain ⟨hmem, hne⟩ := List.mem_filter.mp hname
    obtain ⟨written, hwritten, rfl⟩ := List.mem_map.mp hmem
    rw [← map_toUpper_openingOf] at hpre
    have htake := List.prefix_iff_eq_take.mp (List.isPrefixOf_iff_prefix.mp hpre)
    rw [List.length_map] at htake
    refine ⟨(openingOf (trim written.toList)).drop a.length, _, written, hwritten, by simpa using hne, ?_, rfl⟩
    rw [List.map_append, htake, List.map_drop, List.take_append_drop]

/-- In whatever chunks a text arrives, filters of scripts and of elements, new or flushed, keep as little of it as they
    can: outside of a block the longest end of it that begins a start mark, so less than a start mark is shown late, and
    inside of a block a few bytes. -/
theorem filters_keep_least :
    (∀ s text out, scriptMarkers.Reached s text out →
      scriptMarkers.KeepsLeast ScriptStart (fun _ => ScriptStop) s text out) ∧
    ∀ names : List String, (∀ name ∈ names, '<' ∉ trim name.toList ∧ '>' ∉ trim name.toList) → ∀ s text out,
      (elementMarkers (elementNames names)).Reached s text out →
        (elementMarkers (elementNames names)).KeepsLeast (ElementStart names) ElementStop s text out := by
  refine ⟨fun s text out h => scriptMarkers_exact.keepsLeast h, fun names hnames s text out h => ?_⟩
  have hbrackets : ∀ name ∈ names, Bracketless (trim name.toList) := fun name hname =>
    ⟨(hnames name hname).1, (hnames name hname).2⟩
  exact (elementMarkers_exact hbrackets).keepsLeast h

/-- A filter of scripts in the middle of a tag, and a filter of elements in an open one after another is closed. -/
theorem filters_keep_least_cut :
    (scriptMarkers.Reached ⟨none, "<nit-A9".toList⟩ "ü <nit-A9".toList "ü ".toList ∧
      scriptMarkers.KeepsLeast ScriptStart (fun _ => ScriptStop) ⟨none, "<nit-A9".toList⟩ "ü <nit-A9".toList "ü ".toList) ∧
    (∀ name ∈ oddNames, '<' ∉ trim name.toList ∧ '>' ∉ trim name.toList) ∧
    (elementMarkers (elementNames oddNames)).KeepsLeast (ElementStart oddNames) ElementStop
      ((elementMarkers (elementNames oddNames)).feed .initial "a<é>b</é> c<mood>d</".toList).2
      "a<é>b</é> c<mood>d</".toList ((elementMarkers (elementNames oddNames)).feed .initial "a<é>b</é> c<mood>d</".toList).1 := by
  have hfeed : scriptMarkers.feed .initial "ü <nit-A9".toList = ("ü ".toList, ⟨none, "<nit-A9".toList⟩) := by
    show scriptMarkers.drain none "ü <nit-A9".toList = _
    rw [Markers.drain_of_none rfl]
    rfl
  have hreached := Markers.Reached.initial.feed (m := scriptMarkers) "ü <nit-A9".toList
  rw [hfeed] at hreached
  have hnames : ∀ name ∈ oddNames, '<' ∉ trim name.toList ∧ '>' ∉ trim name.toList := by decide
  exact ⟨⟨hreached, filters_keep_least.1 _ _ _ hreached⟩, hnames,
    filters_keep_least.2 oddNames hnames _ _ _ (Markers.Reached.initial.feed _)⟩

end ToolScript.Stream
