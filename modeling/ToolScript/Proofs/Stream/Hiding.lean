import ToolScript.Proofs.Text.Search
import ToolScript.Stream.Filter

/-! # Hiding in chunks and in one piece

    What a filter shows of a stream does not depend on how the stream is cut: it is what `hide` leaves of the whole
    text. The filter keeps of the text only what may still matter, so at any time hiding what it keeps, with any text
    to come, adds what was still to be shown (`drain_hideFrom`). This holds of families of marks that do not begin
    inside each other (`Delimited`), where the filter recognises the beginning of every start mark that is cut
    (`Recognises`). The filter of a `Lawful` family recognises all of them. -/

namespace ToolScript.Stream
open Text Text.Pattern

variable {Open : Type}

/-- What is shown of a text, step by step: `S` are the start marks with what they open, `E` the end marks. -/
inductive Shown (S : List Char → Open → Prop) (E : Open → List Char → Unit → Prop) : List Char → List Char → Prop
  /-- A text without a start mark is shown. -/
  | plain {s : List Char} (h : Free S s) : Shown S E s s
  /-- A block without an end takes the rest of the text with it. -/
  | unclosed {s before mark rest : List Char} {o : Open} (start : First S s before mark o rest)
      (h : Free (E o) rest) : Shown S E s before
  /-- A block is hidden up to its first end mark. -/
  | closed {s before mark rest body mark' rest' out : List Char} {o : Open} (start : First S s before mark o rest)
      (stop : First (E o) rest body mark' () rest') (h : Shown S E rest' out) : Shown S E s (before ++ out)

namespace Markers
variable {m : Markers Open} {S : List Char → Open → Prop} {E : Open → List Char → Unit → Prop}

/-- What the marks of a family are like: `S` are the start marks with what they open, `E` the end marks. -/
structure Delimited (m : Markers Open) (S : List Char → Open → Prop) (E : Open → List Char → Unit → Prop) : Prop where
  starts : m.start.Spells S
  stops : ∀ o, (m.stop o).Spells (E o)
  startsApart : Apart S
  stopsApart : ∀ o, Apart (E o)
  /-- No end mark begins in the start mark of its block. -/
  stopAfterStart : ∀ {t o t' a b r}, S t o → E o t' () → t ++ r = a ++ (t' ++ b) → t.length ≤ a.length
  /-- An end mark that can be cut is not too long. -/
  stopSize : ∀ {t o t'}, S t o → E o t' () → 1 < t'.length → utf8Size t' ≤ m.maxStop

/-- The filter recognises the beginning of every start mark that begins in `s` and ends in `u`. -/
def Recognises (m : Markers Open) (S : List Char → Open → Prop) (s u : List Char) : Prop :=
  ∀ ⦃a b o⦄, S (a ++ b) o → a ≠ [] → b ≠ [] → a <:+ s → b <+: u → utf8Size a ≤ m.maxStart ∧ m.couldStart a = true

/-- A family of marks all beginnings of which are recognised. -/
structure Lawful (m : Markers Open) (S : List Char → Open → Prop) (E : Open → List Char → Unit → Prop) : Prop
    extends Delimited m S E where
  couldStart : ∀ {t o a b}, S t o → t = a ++ b → a ≠ [] → b ≠ [] → m.couldStart a = true
  startSize : ∀ {t o}, S t o → utf8Size t ≤ m.maxStart

theorem Lawful.recognises (L : m.Lawful S E) (s u : List Char) : m.Recognises S s u := by
  intro a b o hmark ha hb _ _
  have hsize := L.startSize hmark
  rw [utf8Size_append] at hsize
  exact ⟨by omega, L.couldStart hmark rfl ha hb⟩

theorem Recognises.of_suffix {s t u : List Char} (h : m.Recognises S s u) (ht : t <:+ s) : m.Recognises S t u :=
  fun _ _ _ hmark ha hb has hbu => h hmark ha hb (has.trans ht) hbu

/-! ### Hiding from inside a block -/

/-- A text without its blocks, where a block may be open at the beginning. -/
def hideFrom (m : Markers Open) : Option Open → List Char → List Char
  | none, s => m.hide s
  | some o, s => match (m.stop o).search s with
    | none => []
    | some h => m.hide h.rest

theorem hide_of_none {s : List Char} (h : m.start.search s = none) : m.hide s = s := by
  rw [hide]
  split
  · rfl
  · rename_i h' h''
    rw [h] at h''
    cases h''

theorem hide_of_some {s : List Char} {h : Hit Open} (found : m.start.search s = some h) :
    m.hide s = h.before ++ m.hideFrom (some h.value) h.rest := by
  rw [hide]
  split
  · rename_i hn
    rw [found] at hn
    cases hn
  · rename_i h' found'
    rw [found] at found'
    cases found'
    simp only [hideFrom]
    split <;> rename_i hs <;> rw [hs]

theorem hideFrom_of_none {o : Open} {s : List Char} (h : (m.stop o).search s = none) :
    m.hideFrom (some o) s = [] := by
  simp only [hideFrom, h]

theorem hideFrom_of_some {o : Open} {s : List Char} {h : Hit Unit} (found : (m.stop o).search s = some h) :
    m.hideFrom (some o) s = m.hideFrom none h.rest := by
  simp only [hideFrom, found]

theorem hide_append {a s : List Char} (hn : ∀ b, b <:+ a → b ≠ [] → m.start.match? (b ++ s) = none) :
    m.hide (a ++ s) = a ++ m.hide s := by
  have hs := search_append a hn
  cases h : m.start.search s with
  | none =>
    rw [h, Option.map_none] at hs
    rw [hide_of_none hs, hide_of_none h]
  | some k =>
    rw [h, Option.map_some] at hs
    rw [hide_of_some hs, hide_of_some h, List.append_assoc]

theorem hideFrom_append {o : Open} {a s : List Char}
    (hn : ∀ b, b <:+ a → b ≠ [] → (m.stop o).match? (b ++ s) = none) :
    m.hideFrom (some o) (a ++ s) = m.hideFrom (some o) s := by
  have hs := search_append a hn
  cases h : (m.stop o).search s with
  | none =>
    rw [h, Option.map_none] at hs
    rw [hideFrom_of_none hs, hideFrom_of_none h]
  | some k =>
    rw [h, Option.map_some] at hs
    rw [hideFrom_of_some hs, hideFrom_of_some h]

/-- `hide` leaves of a text what is shown of it, and nothing else is. -/
theorem Delimited.shown_iff (L : m.Delimited S E) {s out : List Char} : Shown S E s out ↔ out = m.hide s := by
  constructor
  · intro h
    induction h with
    | plain h => rw [hide_of_none (L.starts.search_eq_none_iff.mpr h)]
    | @unclosed s before mark rest o start h =>
      have found := L.starts.search_eq_some_iff (h := ⟨⟨o, mark, rest⟩, before⟩).mpr start
      rw [hide_of_some found, hideFrom_of_none ((L.stops o).search_eq_none_iff.mpr h), List.append_nil]
    | @closed s before mark rest body mark' rest' out o start stop h ih =>
      have found := L.starts.search_eq_some_iff (h := ⟨⟨o, mark, rest⟩, before⟩).mpr start
      have found' := (L.stops o).search_eq_some_iff (h := ⟨⟨(), mark', rest'⟩, body⟩).mpr stop
      rw [hide_of_some found, hideFrom_of_some found', hideFrom, ih]
  · rintro rfl
    induction s using hide.induct m with
    | case1 s h =>
      rw [hide_of_none h]
      exact .plain (L.starts.search_eq_none_iff.mp h)
    | case2 s h found ih =>
      rw [hide_of_some found]
      cases hs : (m.stop h.value).search h.rest with
      | none =>
        rw [hideFrom_of_none hs, List.append_nil]
        exact .unclosed (L.starts.search_eq_some_iff.mp found) ((L.stops _).search_eq_none_iff.mp hs)
      | some h' =>
        rw [hideFrom_of_some hs]
        exact .closed (L.starts.search_eq_some_iff.mp found) ((L.stops _).search_eq_some_iff.mp hs) (ih h' hs)

/-! ### What is kept of a text -/

theorem lastChars_suffix (n : Nat) (s : List Char) : lastChars n s <:+ s := List.drop_suffix _ _

theorem length_lastChars (n : Nat) (s : List Char) : (lastChars n s).length = min n s.length := by
  simp only [lastChars, List.length_drop]
  omega

theorem lastBytes_suffix (n : Nat) (s : List Char) : lastBytes n s <:+ s := by
  induction s with
  | nil => exact List.suffix_rfl
  | cons c s ih =>
    rw [lastBytes]
    split
    · exact ih.trans (List.suffix_cons c s)
    · exact List.suffix_rfl

theorem le_utf8Size_lastBytes {n : Nat} {s : List Char} (h : n ≤ utf8Size s) : n ≤ utf8Size (lastBytes n s) := by
  induction s with
  | nil => exact h
  | cons c s ih =>
    rw [lastBytes]
    split
    · rename_i hs
      exact ih hs
    · exact h

theorem lastBytes_of_lt {n : Nat} {s : List Char} (h : utf8Size s < n) : lastBytes n s = s := by
  cases s with
  | nil => rfl
  | cons c s =>
    rw [utf8Size_cons] at h
    rw [lastBytes, if_neg (by omega)]

/-- A block's tail is all of its text or long enough to hold any end mark but for its first byte. -/
theorem blockTail_long (m : Markers Open) (s : List Char) :
    m.blockTail s = s ∨ m.maxStop - 1 ≤ utf8Size (m.blockTail s) := by
  unfold blockTail
  rcases Nat.lt_or_ge (utf8Size (lastChars (m.maxStop - 1) s)) (m.maxStop - 1) with hlt | hge
  · left
    have hlen := length_le_utf8Size (lastChars (m.maxStop - 1) s)
    rw [length_lastChars] at hlen
    rw [lastBytes_of_lt hlt]
    exact (lastChars_suffix _ s).eq_of_length (by rw [length_lastChars]; omega)
  · exact Or.inr (le_utf8Size_lastBytes hge)

theorem blockTail_suffix (m : Markers Open) (s : List Char) : m.blockTail s <:+ s :=
  (lastBytes_suffix _ _).trans (lastChars_suffix _ _)

theorem heldFrom_suffix (m : Markers Open) (s : List Char) : m.heldFrom s <:+ s := by
  induction s with
  | nil => exact List.suffix_rfl
  | cons c s ih =>
    rw [heldFrom]
    split
    · exact List.suffix_rfl
    · exact ih.trans (List.suffix_cons c s)

theorem heldBack_suffix (m : Markers Open) (s : List Char) : m.heldBack s <:+ s :=
  (heldFrom_suffix m _).trans (lastChars_suffix _ _)

theorem length_le_heldFrom {s b : List Char} (hb : b <:+ s) (hsize : utf8Size b ≤ m.maxStart)
    (hc : m.couldStart b = true) : b.length ≤ (m.heldFrom s).length := by
  induction s with
  | nil => exact hb.length_le
  | cons c s ih =>
    rw [heldFrom]
    split
    · exact hb.length_le
    · rename_i hn
      rcases List.suffix_cons_iff.mp hb with rfl | hb
      · exact absurd (Bool.and_eq_true_iff.mpr ⟨decide_eq_true hsize, hc⟩) hn
      · exact ih hb

/-- Every end of a text that could begin a start mark is held back. -/
theorem length_le_heldBack {s b : List Char} (hb : b <:+ s) (hsize : utf8Size b ≤ m.maxStart)
    (hc : m.couldStart b = true) : b.length ≤ (m.heldBack s).length := by
  refine length_le_heldFrom (List.suffix_of_suffix_length_le hb (lastChars_suffix _ s) ?_) hsize hc
  have := length_le_utf8Size b
  have := hb.length_le
  rw [length_lastChars]
  omega

/-! ### One chunk -/

/-- No start mark begins before what is held back, if what comes completes none that was not recognised. -/
theorem Delimited.match?_before_heldBack (L : m.Delimited S E) {s a u : List Char} (hs : m.start.search s = none)
    (ha : s = a ++ m.heldBack s) (hr : m.Recognises S s u) {b : List Char} (hb : b <:+ a) (hne : b ≠ []) :
    m.start.match? (b ++ (m.heldBack s ++ u)) = none := by
  have hbs : b ++ m.heldBack s <:+ s := by
    obtain ⟨x, rfl⟩ := hb
    exact ⟨x, by rw [← List.append_assoc, ← ha]⟩
  cases hm : m.start.match? (b ++ (m.heldBack s ++ u)) with
  | none => rfl
  | some k =>
    -- The mark ends in the text to come, so its beginning would have been held back.
    rw [← List.append_assoc] at hm
    obtain ⟨x, hx, hk, hu⟩ := L.starts.match?_append_split (search_eq_none_iff.mp hs _ hbs) hm
    have hmark := ((L.starts _ k).mp hm).2
    rw [hk] at hmark
    obtain ⟨hsize, hcould⟩ := hr hmark (by simp [hne]) hx hbs ⟨k.rest, hu.symm⟩
    have := length_le_heldBack hbs hsize hcould
    rw [List.length_append] at this
    exact absurd (List.length_eq_zero_iff.mp (by omega)) hne

/-- A text in which no start mark stands may be shown but for what is held back. -/
theorem Delimited.hide_heldBack (L : m.Delimited S E) {s a u : List Char} (hs : m.start.search s = none)
    (ha : s = a ++ m.heldBack s) (hr : m.Recognises S s u) : m.hide (s ++ u) = a ++ m.hide (m.heldBack s ++ u) := by
  rw [ha, List.append_assoc, ← ha]
  exact hide_append fun b hb hne => L.match?_before_heldBack hs ha hr hb hne

/-- No end mark begins before the tail that is kept of a block, whatever comes. -/
theorem Delimited.match?_before_blockTail (L : m.Delimited S E) {o : Open} (ho : ∃ t, S t o) {s a u : List Char}
    (hs : (m.stop o).search s = none) (ha : s = a ++ m.blockTail s) {b : List Char} (hb : b <:+ a) (hne : b ≠ []) :
    (m.stop o).match? (b ++ (m.blockTail s ++ u)) = none := by
  have hbs : b ++ m.blockTail s <:+ s := by
    obtain ⟨x, rfl⟩ := hb
    exact ⟨x, by rw [← List.append_assoc, ← ha]⟩
  have := List.length_pos_iff.mpr hne
  rcases blockTail_long m s with heq | hlong
  · have := hbs.length_le
    rw [heq, List.length_append] at this
    omega
  · cases hm : (m.stop o).match? (b ++ (m.blockTail s ++ u)) with
    | none => rfl
    | some k =>
      -- The mark ends in the text to come and begins before the tail, so it would be too long.
      rw [← List.append_assoc] at hm
      obtain ⟨x, hx, hk, -⟩ := (L.stops o).match?_append_split (search_eq_none_iff.mp hs _ hbs) hm
      have := List.length_pos_iff.mpr hx
      obtain ⟨t, ht⟩ := ho
      have hsize := L.stopSize ht ((L.stops o _ k).mp hm).2 (by
        rw [hk, List.length_append, List.length_append]
        omega)
      rw [hk, utf8Size_append, utf8Size_append] at hsize
      have := length_le_utf8Size x
      have := length_le_utf8Size b
      omega

/-- A text in which no end mark stands may be hidden but for its tail, whatever comes. -/
theorem Delimited.hideFrom_blockTail (L : m.Delimited S E) {o : Open} (ho : ∃ t, S t o) {s : List Char}
    (hs : (m.stop o).search s = none) (u : List Char) :
    m.hideFrom (some o) (s ++ u) = m.hideFrom (some o) (m.blockTail s ++ u) := by
  obtain ⟨a, ha⟩ := blockTail_suffix m s
  conv => lhs; rw [← ha, List.append_assoc]
  exact hideFrom_append fun b hb hne => L.match?_before_blockTail ho hs ha.symm hb hne

/-- No end mark begins in the start mark of its block. -/
theorem Delimited.match?_in_mark (L : m.Delimited S E) {t b r : List Char} {o : Open} (ht : S t o) (hb : b <:+ t)
    (hne : b ≠ []) : (m.stop o).match? (b ++ r) = none := by
  cases hm : (m.stop o).match? (b ++ r) with
  | none => rfl
  | some k =>
    obtain ⟨a, rfl⟩ := hb
    obtain ⟨hk, hmark⟩ := (L.stops o _ k).mp hm
    have := L.stopAfterStart (r := r) ht hmark (a := a) (b := k.rest) (by rw [List.append_assoc, hk])
    rw [List.length_append] at this
    exact absurd (List.length_eq_zero_iff.mp (by omega)) hne

theorem Delimited.hideFrom_mark (L : m.Delimited S E) {t : List Char} {o : Open} (ht : S t o) (r : List Char) :
    m.hideFrom (some o) (t ++ r) = m.hideFrom (some o) r :=
  hideFrom_append fun _ hb hne => L.match?_in_mark ht hb hne

/-- A state in which all that can be told of the text has been told. A block is open only if a start mark opens such. -/
def Drained (m : Markers Open) (S : List Char → Open → Prop) (s : State Open) : Prop :=
  match s.opened with
  | none => m.start.search s.buffer = none
  | some o => (∃ t, S t o) ∧ (m.stop o).search s.buffer = none

theorem Drained.opened {s : State Open} (h : m.Drained S s) : ∀ o, s.opened = some o → ∃ t, S t o := by
  intro o ho
  rw [Drained, ho] at h
  exact h.1

theorem search_none_of_suffix {α : Type} {p : Pattern α} {s t : List Char} (ht : t <:+ s)
    (h : p.search s = none) : p.search t = none :=
  search_eq_none_iff.mpr fun b hb => search_eq_none_iff.mp h b (hb.trans ht)

theorem drain_of_none {buffer : List Char} (h : m.start.search buffer = none) :
    m.drain none buffer =
      (buffer.take (buffer.length - (m.heldBack buffer).length), ⟨none, m.heldBack buffer⟩) := by
  rw [drain]
  split
  · rfl
  · rename_i k found
    rw [h] at found
    cases found

theorem Delimited.drained_drain (L : m.Delimited S E) {opened : Option Open} (ho : ∀ o, opened = some o → ∃ t, S t o)
    (buffer : List Char) : m.Drained S (m.drain opened buffer).2 := by
  fun_induction m.drain opened buffer with
  | case1 buffer o h => exact ⟨ho o rfl, search_none_of_suffix (blockTail_suffix m buffer) h⟩
  | case2 buffer o h found ih => exact ih (by simp)
  | case3 buffer h held => exact search_none_of_suffix (heldBack_suffix m buffer) h
  | case4 buffer h found out state heq ih =>
    rw [heq] at ih
    refine ih ?_
    rintro o ⟨⟩
    exact ⟨h.text, (L.starts.search_eq_some_iff.mp found).mark⟩

theorem drain_suffix (m : Markers Open) (opened : Option Open) (buffer : List Char) :
    (m.drain opened buffer).2.buffer <:+ buffer := by
  fun_induction m.drain opened buffer with
  | case1 buffer o h => exact blockTail_suffix m buffer
  | case2 buffer o h found ih =>
    have hrest : h.rest <:+ buffer := ⟨h.before ++ h.text, by rw [List.append_assoc, ← search_eq_append found]⟩
    exact ih.trans hrest
  | case3 buffer h held => exact heldBack_suffix m buffer
  | case4 buffer h found out state heq ih =>
    rw [heq] at ih
    exact ih.trans ⟨h.before, (search_eq_append found).symm⟩

/-- What is shown of a chunk, and of what is kept with any text to come, is what is shown of all the text. -/
theorem Delimited.drain_hideFrom (L : m.Delimited S E) {opened : Option Open} (ho : ∀ o, opened = some o → ∃ t, S t o)
    {buffer u : List Char} (hr : (m.drain opened buffer).2.opened = none → m.Recognises S buffer u) :
    m.hideFrom opened (buffer ++ u) =
      (m.drain opened buffer).1 ++ m.hideFrom (m.drain opened buffer).2.opened ((m.drain opened buffer).2.buffer ++ u) := by
  fun_induction m.drain opened buffer with
  | case1 buffer o h => exact L.hideFrom_blockTail (ho o rfl) h u
  | case2 buffer o h found ih =>
    have hrest : h.rest <:+ buffer := ⟨h.before ++ h.text, by rw [List.append_assoc, ← search_eq_append found]⟩
    rw [hideFrom_of_some ((L.stops o).search_append_of_some (L.stopsApart o) found u)]
    exact ih (by simp) fun hn => (hr hn).of_suffix hrest
  | case3 buffer h held =>
    obtain ⟨a, ha⟩ := heldBack_suffix m buffer
    have hlen : a.length = buffer.length - held.length := by
      have := congrArg List.length ha
      rw [List.length_append] at this
      show a.length = buffer.length - (m.heldBack buffer).length
      omega
    have htake : buffer.take (buffer.length - held.length) = a := by
      rw [← hlen, ← ha, List.take_left]
    rw [htake]
    exact L.hide_heldBack h ha.symm (hr rfl)
  | case4 buffer h found out state heq ih =>
    have hmark := (L.starts.search_eq_some_iff.mp found).mark
    have hopened : ∀ o, some h.value = some o → ∃ t, S t o := by
      rintro o ⟨⟩
      exact ⟨h.text, hmark⟩
    rw [heq] at ih
    have ih := ih hopened fun hn => (hr hn).of_suffix ⟨h.before, (search_eq_append found).symm⟩
    rw [List.append_assoc, L.hideFrom_mark hmark] at ih
    rw [hideFrom, hide_of_some (L.starts.search_append_of_some L.startsApart found u), ih, List.append_assoc]

/-! ### A whole stream -/

/-- Feeds chunks in order. -/
def feeds (m : Markers Open) (s : State Open) : List (List Char) → List Char × State Open
  | [] => ([], s)
  | chunk :: rest =>
    let (out, s) := m.feed s chunk
    let (more, s) := feeds m s rest
    (out ++ more, s)

theorem runFrom_eq_feeds (m : Markers Open) (s : State Open) (chunks : List (List Char)) :
    m.runFrom s chunks = (m.feeds s chunks).1 ++ (flush (m.feeds s chunks).2).1 := by
  induction chunks generalizing s with
  | nil => rfl
  | cons chunk rest ih =>
    simp only [runFrom, feeds, List.append_assoc]
    rw [ih]

theorem runFrom_append (m : Markers Open) (s : State Open) (early later : List (List Char)) :
    m.runFrom s (early ++ later) = (m.feeds s early).1 ++ m.runFrom (m.feeds s early).2 later := by
  induction early generalizing s with
  | nil => rfl
  | cons chunk early ih =>
    simp only [List.cons_append, runFrom, feeds, List.append_assoc]
    rw [ih]

theorem heldFrom_eq_nil_or (m : Markers Open) (s : List Char) :
    m.heldFrom s = [] ∨ m.couldStart (m.heldFrom s) = true := by
  induction s with
  | nil => exact Or.inl rfl
  | cons c s ih =>
    rw [heldFrom]
    split
    · rename_i h
      exact Or.inr (Bool.and_eq_true_iff.mp h).2
    · exact ih

/-- Outside of a block only what could begin a start mark is kept. -/
theorem drain_held (m : Markers Open) (opened : Option Open) (buffer : List Char)
    (h : (m.drain opened buffer).2.opened = none) :
    (m.drain opened buffer).2.buffer = [] ∨ m.couldStart (m.drain opened buffer).2.buffer = true := by
  fun_induction m.drain opened buffer with
  | case1 buffer o hs => cases h
  | case2 buffer o k found ih => exact ih h
  | case3 buffer hs held => exact heldFrom_eq_nil_or m _
  | case4 buffer k found out state heq ih =>
    rw [heq] at ih
    exact ih h

theorem feeds_held (m : Markers Open) {s : State Open}
    (hs : s.opened = none → s.buffer = [] ∨ m.couldStart s.buffer = true) (chunks : List (List Char))
    (h : (m.feeds s chunks).2.opened = none) :
    (m.feeds s chunks).2.buffer = [] ∨ m.couldStart (m.feeds s chunks).2.buffer = true := by
  induction chunks generalizing s with
  | nil => exact hs h
  | cons chunk rest ih => exact ih (m.drain_held s.opened (s.buffer ++ chunk)) h

/-- Where nothing is kept, the stream goes on as a new one. -/
theorem run_append_of_initial {early : List (List Char)} (h : (m.feeds .initial early).2 = .initial)
    (later : List (List Char)) : m.run (early ++ later) = m.run early ++ m.run later := by
  have hearly : m.run early = (m.feeds .initial early).1 := by
    rw [run, runFrom_eq_feeds, h]
    exact List.append_nil _
  rw [hearly, run, runFrom_append, h, run]

theorem Delimited.drained_feeds (L : m.Delimited S E) {s : State Open} (h : m.Drained S s) (chunks : List (List Char)) :
    m.Drained S (m.feeds s chunks).2 := by
  induction chunks generalizing s with
  | nil => exact h
  | cons chunk rest ih => exact ih (L.drained_drain h.opened (s.buffer ++ chunk))

theorem drained_initial (m : Markers Open) : m.Drained S .initial := search_nil m.start

theorem flush_eq_hideFrom {s : State Open} (h : m.Drained S s) : (flush s).1 = m.hideFrom s.opened s.buffer := by
  obtain ⟨opened, buffer⟩ := s
  cases opened with
  | none => exact (hide_of_none h).symm
  | some o => exact (hideFrom_of_none h.2).symm

theorem feeds_suffix (m : Markers Open) (s : State Open) (chunks : List (List Char)) :
    (m.feeds s chunks).2.buffer <:+ s.buffer ++ chunks.flatten := by
  induction chunks generalizing s with
  | nil => simp [feeds]
  | cons chunk rest ih =>
    obtain ⟨a, ha⟩ := drain_suffix m s.opened (s.buffer ++ chunk)
    refine (ih (m.feed s chunk).2).trans ⟨a, ?_⟩
    rw [List.flatten_cons, ← List.append_assoc, ← List.append_assoc, ← ha]
    rfl

/-- At every cut outside of a block, from a given state, the filter recognises the start mark that is cut; `u` comes
    after the chunks. -/
def RecognisesCuts (m : Markers Open) (S : List Char → Open → Prop) (s : State Open) (chunks : List (List Char))
    (u : List Char) : Prop :=
  ∀ early later, chunks = early ++ later → (m.feeds s early).2.opened = none →
    m.Recognises S (s.buffer ++ early.flatten) (later.flatten ++ u)

theorem Lawful.recognisesCuts (L : m.Lawful S E) (s : State Open) (chunks : List (List Char)) (u : List Char) :
    m.RecognisesCuts S s chunks u :=
  fun _ _ _ _ => L.recognises _ _

theorem RecognisesCuts.tail {s : State Open} {chunk u : List Char} {rest : List (List Char)}
    (h : m.RecognisesCuts S s (chunk :: rest) u) : m.RecognisesCuts S (m.feed s chunk).2 rest u := by
  intro early later heq hn
  obtain ⟨a, ha⟩ := drain_suffix m s.opened (s.buffer ++ chunk)
  refine (h (chunk :: early) later (by rw [heq, List.cons_append]) hn).of_suffix ⟨a, ?_⟩
  rw [List.flatten_cons, ← List.append_assoc, ← List.append_assoc, ← ha]
  rfl

theorem Delimited.feeds_hideFrom (L : m.Delimited S E) {s : State Open} (hs : m.Drained S s) {chunks : List (List Char)}
    {u : List Char} (hr : m.RecognisesCuts S s chunks u) :
    m.hideFrom s.opened (s.buffer ++ (chunks.flatten ++ u)) =
      (m.feeds s chunks).1 ++ m.hideFrom (m.feeds s chunks).2.opened ((m.feeds s chunks).2.buffer ++ u) := by
  induction chunks generalizing s with
  | nil => rfl
  | cons chunk rest ih =>
    have hcut : (m.feed s chunk).2.opened = none → m.Recognises S (s.buffer ++ chunk) (rest.flatten ++ u) := by
      intro hn
      have := hr [chunk] rest rfl hn
      rwa [List.flatten_singleton] at this
    simp only [feeds, feed, List.flatten_cons, List.append_assoc]
    rw [← ih (L.drained_drain hs.opened (s.buffer ++ chunk)) hr.tail, ← List.append_assoc s.buffer]
    exact L.drain_hideFrom hs.opened hcut

/-- A stream in which every start mark that is cut is recognised shows what is shown of the text in one piece. -/
theorem Delimited.runFrom_eq (L : m.Delimited S E) {s : State Open} (hs : m.Drained S s) {chunks : List (List Char)}
    (hr : m.RecognisesCuts S s chunks []) :
    m.runFrom s chunks = m.hideFrom s.opened (s.buffer ++ chunks.flatten) := by
  have := L.feeds_hideFrom hs hr
  rw [List.append_nil, List.append_nil] at this
  rw [runFrom_eq_feeds, flush_eq_hideFrom (L.drained_feeds hs chunks), this]

theorem Lawful.runFrom_eq (L : m.Lawful S E) {s : State Open} (hs : m.Drained S s) (chunks : List (List Char)) :
    m.runFrom s chunks = m.hideFrom s.opened (s.buffer ++ chunks.flatten) :=
  L.toDelimited.runFrom_eq hs (L.recognisesCuts _ _ _)

/-- What has been shown stays, whatever comes. -/
theorem Lawful.feeds_prefix (L : m.Lawful S E) (chunks : List (List Char)) (later : List Char) :
    (m.feeds .initial chunks).1 <+: m.hide (chunks.flatten ++ later) :=
  ⟨_, (L.toDelimited.feeds_hideFrom m.drained_initial (L.recognisesCuts _ _ _)).symm⟩

end Markers
end ToolScript.Stream
