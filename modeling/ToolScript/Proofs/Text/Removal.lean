import Mathlib.Data.List.DropRight
import ToolScript.Proofs.Text.Search
import ToolScript.Text.Blank

/-! # What a removal leaves

    Where the matches of a pattern are removed from a text, their neighbours come together. A part of what is left that
    lies between two removed matches stands in the text too (`Stays`), such parts keep their order, and no match begins
    at one. A text without matches is all that a removal keeps. A text of which no match reaches from one part into the
    other is removed from in parts (`Leaves`). -/

namespace ToolScript.Text

namespace Pattern
variable {α : Type} {p : Pattern α} {s : List Char}

/-- A part `t` of what a removal leaves lies between two matches: it stands behind `a` in the text, and behind `b` in
    what is left of it. -/
inductive Stays (p : Pattern α) : (s a b t : List Char) → Prop
  | last {s x t y : List Char} (none : p.search s = none) (whole : s = x ++ (t ++ y)) : Stays p s x x t
  | first {s x t y : List Char} {h : Hit α} (found : p.search s = some h) (gap : h.before = x ++ (t ++ y)) :
      Stays p s x x t
  | later {s a b t : List Char} {h : Hit α} (found : p.search s = some h) (more : Stays p h.rest a b t) :
      Stays p s (h.before ++ (h.text ++ a)) (h.before ++ b) t

theorem Stays.eq_append {a b t : List Char} (h : p.Stays s a b t) : ∃ r, s = a ++ (t ++ r) := by
  induction h with
  | last none whole => exact ⟨_, whole⟩
  | first found gap => exact ⟨_, by rw [search_eq_append found, gap, List.append_assoc, List.append_assoc]⟩
  | later found more ih =>
    obtain ⟨r, hr⟩ := ih
    exact ⟨r, by rw [search_eq_append found, hr]; simp⟩

/-- No match begins with a part that lies between two. -/
theorem Stays.match?_eq_none {a b t r : List Char} (h : p.Stays s a b t) (ht : t ≠ []) (hs : s = a ++ (t ++ r)) :
    p.match? (t ++ r) = none := by
  have hpos := List.length_pos_iff.mpr ht
  induction h with
  | last none whole => exact search_eq_none_iff.mp none _ ⟨_, hs.symm⟩
  | @first s x t y k found gap =>
    refine match?_before_search found ⟨x, hs.symm⟩ ?_
    have hlen := congrArg List.length (hs.symm.trans (search_eq_append found))
    simp only [gap, List.length_append] at hlen ⊢
    omega
  | @later s a b t k found more ih =>
    have hrest : k.before ++ k.text ++ k.rest = k.before ++ k.text ++ (a ++ (t ++ r)) := by
      rw [List.append_assoc, ← search_eq_append found, hs]
      simp
    exact ih ht (List.append_cancel_left hrest) hpos

/-- Of two parts the one that comes first in what is left comes first in the text. -/
theorem Stays.length_le {a b t a' b' t' : List Char} (h : p.Stays s a b t) (h' : p.Stays s a' b' t') (ht : t ≠ [])
    (hle : (b ++ t).length ≤ b'.length) : (a ++ t).length ≤ a'.length := by
  have hpos := List.length_pos_iff.mpr ht
  induction h generalizing a' b' with
  | last none whole =>
    cases h' with
    | last none' whole' => exact hle
    | first found gap => rw [none] at found; cases found
    | later found more => rw [none] at found; cases found
  | first found gap =>
    cases h' with
    | last none whole => rw [found] at none; cases none
    | first found' gap' => exact hle
    | later found' more =>
      rw [found] at found'
      cases found'
      simp only [gap, List.length_append]
      omega
  | later found more ih =>
    cases h' with
    | last none whole => rw [found] at none; cases none
    | first found' gap =>
      rw [found] at found'
      cases found'
      simp only [gap, List.length_append] at hle
      omega
    | later found' more' =>
      rw [found] at found'
      cases found'
      simp only [List.length_append] at hle
      have := ih more' ht (by simp only [List.length_append]; omega) hpos
      simp only [List.length_append] at this ⊢
      omega

/-- Behind a part that lies between two matches there may be another, and still no match begins with the first. -/
theorem Stays.exists_after {a b t a' b' t' : List Char} (h : p.Stays s a b t) (h' : p.Stays s a' b' t') (ht : t ≠ [])
    (hle : (b ++ t).length ≤ b'.length) : ∃ mid r, a' = a ++ (t ++ mid) ∧ p.match? (t ++ (mid ++ (t' ++ r))) = none := by
  obtain ⟨r, hr⟩ := h.eq_append
  obtain ⟨r', hr'⟩ := h'.eq_append
  rw [← List.append_assoc] at hr
  obtain ⟨mid, rfl⟩ := List.prefix_of_prefix_length_le ⟨r, hr.symm⟩ ⟨_, hr'.symm⟩ (h.length_le h' ht hle)
  rw [List.append_assoc, List.append_assoc] at hr'
  exact ⟨mid, r', List.append_assoc a t mid, h.match?_eq_none ht hr'⟩

/-! ### Texts that stay as they are -/

theorem remove_sublist (p : Pattern α) (s : List Char) : (p.remove s).Sublist s := by
  induction hn : s.length using Nat.strong_induction_on generalizing s with
  | _ n ih =>
    cases found : p.search s with
    | none => rw [remove_of_none found]
    | some h =>
      have hrest := ih _ (hn ▸ rest_length_lt found) h.rest rfl
      rw [remove_of_some found, search_eq_append found]
      exact (List.Sublist.refl _).append (hrest.trans (List.sublist_append_right _ _))

theorem length_remove_le (p : Pattern α) (s : List Char) : (p.remove s).length ≤ s.length :=
  (remove_sublist p s).length_le

theorem length_remove_lt {h : Hit α} (found : p.search s = some h) : (p.remove s).length < s.length := by
  have hrest := length_remove_le p h.rest
  have hs := congrArg List.length (search_eq_append found)
  have hpos := match?_length_pos (match?_of_search found)
  rw [remove_of_some found]
  simp only [List.length_append] at hs ⊢
  omega

theorem search_eq_none_of_length_le (h : s.length ≤ (p.remove s).length) : p.search s = none := by
  cases found : p.search s with
  | none => rfl
  | some k => exact absurd (length_remove_lt found) (Nat.not_lt.mpr h)

/-! ### The matches of a text -/

/-- A match that is removed from a text stands in it behind `a`. -/
inductive Finds (p : Pattern α) : (s a : List Char) → Match α → Prop
  | first {s : List Char} {h : Hit α} (found : p.search s = some h) : Finds p s h.before h.toMatch
  | later {s a : List Char} {m : Match α} {h : Hit α} (found : p.search s = some h) (more : Finds p h.rest a m) :
      Finds p s (h.before ++ (h.text ++ a)) m

theorem not_finds_of_none {a : List Char} {m : Match α} (hn : p.search s = none) : ¬p.Finds s a m := by
  intro h
  cases h with
  | first found => rw [hn] at found; cases found
  | later found more => rw [hn] at found; cases found

theorem finds_iff_of_some {h : Hit α} (found : p.search s = some h) {a : List Char} {m : Match α} :
    p.Finds s a m ↔ (a = h.before ∧ m = h.toMatch) ∨ ∃ b, a = h.before ++ (h.text ++ b) ∧ p.Finds h.rest b m := by
  constructor
  · intro hm
    cases hm with
    | first found' =>
      rw [found] at found'
      cases found'
      exact Or.inl ⟨rfl, rfl⟩
    | later found' more =>
      rw [found] at found'
      cases found'
      exact Or.inr ⟨_, rfl, more⟩
  · rintro (⟨rfl, rfl⟩ | ⟨b, rfl, more⟩)
    · exact .first found
    · exact .later found more

theorem Finds.eq_append {a : List Char} {m : Match α} (h : p.Finds s a m) : s = a ++ (m.text ++ m.rest) := by
  induction h with
  | first found => exact search_eq_append found
  | later found more ih => rw [search_eq_append found, ih]; simp

theorem Finds.match? {a : List Char} {m : Match α} (h : p.Finds s a m) : p.match? (m.text ++ m.rest) = some m := by
  induction h with
  | first found => exact match?_of_search found
  | later found more ih => exact ih

theorem Finds.length_le {a : List Char} {m : Match α} (hm : p.Finds s a m) {h : Hit α} (found : p.search s = some h) :
    h.before.length ≤ a.length := by
  rcases (finds_iff_of_some found).mp hm with ⟨rfl, -⟩ | ⟨b, rfl, -⟩
  · exact Nat.le_refl _
  · rw [List.length_append]
    exact Nat.le_add_right _ _

/-! ### Removal from a text in parts -/

/-- In front of `y` the removal leaves `left` of `x`, and no match reaches from `x` into `y`. -/
inductive Leaves (p : Pattern α) (y : List Char) : (x left : List Char) → Prop
  | gap {x : List Char} (hn : ∀ b, b <:+ x → b ≠ [] → p.match? (b ++ y) = none) : Leaves p y x x
  | hit {x left : List Char} {h : Hit α} (found : p.search (h.before ++ (h.text ++ (x ++ y))) = some h)
      (hrest : h.rest = x ++ y) (more : Leaves p y x left) :
      Leaves p y (h.before ++ (h.text ++ x)) (h.before ++ left)

theorem Leaves.nil (y : List Char) : p.Leaves y [] [] :=
  .gap fun _ hb hne => absurd (List.suffix_nil.mp hb) hne

/-- No match begins in a text before the first one. -/
theorem leaves_before {x y : List Char} {h : Hit α} (found : p.search (x ++ y) = some h)
    (hle : x.length ≤ h.before.length) : p.Leaves y x x := by
  refine .gap fun b hb hne => match?_before_search found ?_ ?_
  · obtain ⟨a, rfl⟩ := hb
    exact ⟨a, by simp⟩
  · have hs := congrArg List.length (search_eq_append found)
    have hpos := List.length_pos_iff.mpr hne
    simp only [List.length_append] at hs ⊢
    omega

theorem leaves_of_none {x y : List Char} (hn : p.search (x ++ y) = none) : p.Leaves y x x := by
  refine .gap fun b hb _ => search_eq_none_iff.mp hn _ ?_
  obtain ⟨a, rfl⟩ := hb
  exact ⟨a, by simp⟩

theorem leaves_match {m : Match α} (hm : p.match? (m.text ++ m.rest) = some m) : p.Leaves m.rest m.text [] := by
  have hhit : p.Leaves m.rest ([] ++ (m.text ++ [])) ([] ++ []) := .hit (h := ⟨m, []⟩) (search_of_match? hm) rfl (.nil _)
  simpa using hhit

theorem Finds.leaves {a : List Char} {m : Match α} (h : p.Finds s a m) : ∃ left, p.Leaves (m.text ++ m.rest) a left := by
  induction h with
  | @first s h found =>
    exact ⟨h.before, leaves_before (search_eq_append found ▸ found) (Nat.le_refl _)⟩
  | @later s a m h found more ih =>
    obtain ⟨left, ih⟩ := ih
    have hrest := more.eq_append
    rw [search_eq_append found, hrest] at found
    exact ⟨_, .hit found hrest ih⟩

/-- The removal goes through the front part match by match, or a match reaches over its end. -/
theorem leaves_or_finds (x y : List Char) : (∃ left, p.Leaves y x left) ∨
    ∃ a m, p.Finds (x ++ y) a m ∧ a.length < x.length ∧ x.length < (a ++ m.text).length := by
  induction hn : x.length using Nat.strong_induction_on generalizing x with
  | _ n ih =>
    subst hn
    cases found : p.search (x ++ y) with
    | none => exact Or.inl ⟨x, leaves_of_none found⟩
    | some h =>
      by_cases hgap : x.length ≤ h.before.length
      · exact Or.inl ⟨x, leaves_before found hgap⟩
      by_cases hend : (h.before ++ h.text).length ≤ x.length
      · have hs := search_eq_append found
        rw [← List.append_assoc] at hs
        obtain ⟨x, rfl⟩ := List.prefix_of_prefix_length_le ⟨h.rest, hs.symm⟩ (List.prefix_append x y) hend
        have hrest : h.rest = x ++ y := by
          rw [List.append_assoc (h.before ++ h.text)] at hs
          exact (List.append_cancel_left hs).symm
        have hpos := match?_length_pos (match?_of_search found)
        have hlt : x.length < (h.before ++ h.text ++ x).length := by
          simp only [List.length_append]
          omega
        simp only [List.append_assoc] at found ⊢
        rcases ih x.length hlt x rfl with ⟨left, more⟩ | ⟨a, m, hm, hlt, hgt⟩
        · exact Or.inl ⟨_, .hit found hrest more⟩
        · refine Or.inr ⟨_, m, .later found (hrest ▸ hm), ?_⟩
          simp only [List.length_append] at hlt hgt ⊢
          omega
      · exact Or.inr ⟨_, _, .first found, Nat.lt_of_not_le hgap, Nat.lt_of_not_le hend⟩

section
variable {x y left : List Char}

theorem Leaves.remove_append (h : p.Leaves y x left) : p.remove (x ++ y) = left ++ p.remove y := by
  induction h with
  | gap hn => exact Pattern.remove_append hn
  | hit found hrest more ih =>
    rw [List.append_assoc, List.append_assoc, remove_of_some found, hrest, ih, List.append_assoc]

theorem Leaves.sublist (h : p.Leaves y x left) : left.Sublist x := by
  induction h with
  | gap hn => exact List.Sublist.refl _
  | hit found hrest more ih => exact (List.Sublist.refl _).append (ih.trans (List.sublist_append_right _ _))

/-- Behind a text in which no match begins the first match is the same. -/
theorem search_behind {h : Hit α} (hn : ∀ b, b <:+ x → b ≠ [] → p.match? (b ++ y) = none) (found : p.search y = some h) :
    p.search (x ++ y) = some ⟨h.toMatch, x ++ h.before⟩ := by
  rw [search_append x hn, found, Option.map_some]

theorem Leaves.append_gap {x' left' : List Char} (hn : ∀ b, b <:+ x → b ≠ [] → p.match? (b ++ (x' ++ y)) = none)
    (h' : p.Leaves y x' left') : p.Leaves y (x ++ x') (x ++ left') := by
  cases h' with
  | gap hn' =>
    refine .gap fun b hb hne => ?_
    obtain ⟨a, hb⟩ := hb
    rcases List.append_eq_append_iff.mp hb with ⟨c, rfl, rfl⟩ | ⟨c, rfl, rfl⟩
    · by_cases hc : c = []
      · subst hc
        exact hn' x' List.suffix_rfl hne
      · rw [List.append_assoc]
        exact hn c (List.suffix_append a c) hc
    · exact hn' b (List.suffix_append c b) hne
  | @hit x' left' h found hrest more =>
    rw [List.append_assoc, List.append_assoc] at hn
    have hhit := Leaves.hit (h := ⟨h.toMatch, x ++ h.before⟩) (by simpa using search_behind hn found) hrest more
    simpa using hhit

theorem Leaves.append {x' left' : List Char} (h : p.Leaves (x' ++ y) x left) (h' : p.Leaves y x' left') :
    p.Leaves y (x ++ x') (left ++ left') := by
  induction h with
  | gap hn => exact .append_gap hn h'
  | @hit x left h found hrest more ih =>
    have hhit := Leaves.hit (h := h) (x := x ++ x') (y := y) (by simpa using found) (by simpa using hrest) ih
    simpa using hhit

theorem Leaves.finds (h : p.Leaves y x left) {a : List Char} {m : Match α} (hm : p.Finds y a m) :
    p.Finds (x ++ y) (x ++ a) m := by
  induction h with
  | gap hn =>
    cases hm with
    | first found => exact .first (search_behind hn found)
    | later found more =>
      have hlater := Finds.later (search_behind hn found) more
      simpa using hlater
  | hit found hrest more ih =>
    have hlater := Finds.later found (hrest ▸ ih)
    simpa using hlater

theorem stays_behind {a b t : List Char} (hn : ∀ b, b <:+ x → b ≠ [] → p.match? (b ++ y) = none)
    (hstays : p.Stays (x ++ y) a b t) :
    (a.length < x.length ∧ a = b) ∨ ∃ a' b', a = x ++ a' ∧ b = x ++ b' ∧ p.Stays y a' b' t := by
  have hsearch := search_append x hn
  cases hstays with
  | @last _ a t z none whole =>
    rw [hsearch] at none
    by_cases hlt : a.length < x.length
    · exact Or.inl ⟨hlt, rfl⟩
    · obtain ⟨a, rfl⟩ := List.prefix_of_prefix_length_le (List.prefix_append x y) ⟨t ++ z, whole.symm⟩
        (Nat.le_of_not_lt hlt)
      rw [List.append_assoc] at whole
      exact Or.inr ⟨a, a, rfl, rfl, .last (Option.map_eq_none_iff.mp none) (List.append_cancel_left whole)⟩
  | @first _ a t z h found gap =>
    rw [hsearch] at found
    obtain ⟨k, hk, rfl⟩ := Option.map_eq_some_iff.mp found
    by_cases hlt : a.length < x.length
    · exact Or.inl ⟨hlt, rfl⟩
    · obtain ⟨a, rfl⟩ := List.prefix_of_prefix_length_le (List.prefix_append x k.before) ⟨t ++ z, gap.symm⟩
        (Nat.le_of_not_lt hlt)
      rw [List.append_assoc] at gap
      exact Or.inr ⟨a, a, rfl, rfl, .first hk (List.append_cancel_left gap)⟩
  | later found more =>
    rw [hsearch] at found
    obtain ⟨k, hk, rfl⟩ := Option.map_eq_some_iff.mp found
    exact Or.inr ⟨_, _, by simp, by simp, .later hk more⟩

/-- A part between two matches begins in the front part of the text, and of what is left of it, or behind both. -/
theorem Leaves.stays_cases (h : p.Leaves y x left) {a b t : List Char} (ht : t ≠ []) (hstays : p.Stays (x ++ y) a b t) :
    (a.length < x.length ∧ b.length < left.length ∧ ((b ++ t).length ≤ left.length → (a ++ t).length ≤ x.length)) ∨
      ∃ a' b', a = x ++ a' ∧ b = left ++ b' ∧ p.Stays y a' b' t := by
  have hpos := List.length_pos_iff.mpr ht
  induction h generalizing a b with
  | gap hn =>
    rcases stays_behind hn hstays with ⟨hlt, rfl⟩ | h
    · exact Or.inl ⟨hlt, hlt, id⟩
    · exact Or.inr h
  | @hit x left h found hrest more ih =>
    rw [List.append_assoc, List.append_assoc] at hstays
    have htext := match?_length_pos (match?_of_search found)
    cases hstays with
    | last none whole => rw [found] at none; cases none
    | first found' gap =>
      rw [found] at found'
      cases found'
      left
      simp only [gap, List.length_append]
      omega
    | later found' more' =>
      rw [found] at found'
      cases found'
      rw [hrest] at more'
      rcases ih more' with ⟨hlt, hlt', hend⟩ | ⟨a', b', rfl, rfl, h⟩
      · left
        simp only [List.length_append] at hend ⊢
        omega
      · exact Or.inr ⟨a', b', by simp, by simp, h⟩

end

end Pattern

/-! ### Trimming -/

theorem trim_eq_rdropWhile (s : List Char) : trim s = (s.dropWhile isBlank).rdropWhile isBlank := rfl

theorem trim_eq_nil_iff {s : List Char} : trim s = [] ↔ s.all isBlank = true := by
  rw [trim_eq_rdropWhile, List.rdropWhile_eq_nil_iff, List.all_eq_true]
  refine ⟨fun h c hc => ?_, fun h c hc => h c ((List.dropWhile_sublist _).subset hc)⟩
  rw [← List.takeWhile_append_dropWhile (p := isBlank) (l := s)] at hc
  rcases List.mem_append.mp hc with hc | hc
  · exact List.mem_takeWhile_imp hc
  · exact h c hc

/-- A text is its trimmed form with blanks around it. -/
theorem exists_blanks_trim (s : List Char) : ∃ r, s = s.takeWhile isBlank ++ (trim s ++ r) := by
  obtain ⟨r, hr⟩ := List.rdropWhile_prefix isBlank (s.dropWhile isBlank)
  exact ⟨r, by rw [trim_eq_rdropWhile, hr, List.takeWhile_append_dropWhile]⟩

theorem trim_sublist (s : List Char) : (trim s).Sublist s := by
  obtain ⟨r, hr⟩ := exists_blanks_trim s
  have hinfix : trim s <:+: s := ⟨s.takeWhile isBlank, r, by rw [List.append_assoc]; exact hr.symm⟩
  exact hinfix.sublist

theorem length_trim_le (s : List Char) : (trim s).length ≤ s.length :=
  (trim_sublist s).length_le

theorem trim_trim (s : List Char) : trim (trim s) = trim s := by
  have hleft : (trim s).dropWhile isBlank = trim s := by
    obtain ⟨r, hr⟩ := List.rdropWhile_prefix isBlank (s.dropWhile isBlank)
    rw [← trim_eq_rdropWhile] at hr
    cases ht : trim s with
    | nil => rfl
    | cons c t =>
      have hhead := List.head?_dropWhile_not isBlank s
      rw [← hr, ht, List.cons_append, List.head?_cons] at hhead
      rw [List.dropWhile_cons_of_neg (by simp [hhead])]
  rw [trim_eq_rdropWhile (trim s), hleft, trim_eq_rdropWhile, List.rdropWhile_idempotent]

/-- A text with a character at either end that is not blank. -/
structure Trimmed (s : List Char) : Prop where
  head : ∃ c, s.head? = some c ∧ isBlank c = false
  last : ∃ c, s.getLast? = some c ∧ isBlank c = false

/-- A text with blanks around it, or none. -/
def InBlanks (inside s : List Char) : Prop :=
  ∃ before after, (∀ c ∈ before, isBlank c = true) ∧ (∀ c ∈ after, isBlank c = true) ∧ s = before ++ (inside ++ after)

theorem inBlanks_self (s : List Char) : InBlanks s s :=
  ⟨[], [], by simp, by simp, by simp⟩

theorem dropWhile_blanks {blanks s : List Char} (hblanks : ∀ c ∈ blanks, isBlank c = true)
    (hs : ∃ c, s.head? = some c ∧ isBlank c = false) : (blanks ++ s).dropWhile isBlank = s := by
  obtain ⟨c, hc, hblank⟩ := hs
  obtain ⟨r, rfl⟩ := List.head?_eq_some_iff.mp hc
  rw [List.dropWhile_append_of_pos hblanks, List.dropWhile_cons_of_neg (by simp [hblank])]

theorem trim_of_inBlanks {inside s : List Char} (h : InBlanks inside s) (ht : Trimmed inside) : trim s = inside := by
  obtain ⟨before, after, hbefore, hafter, rfl⟩ := h
  obtain ⟨c, hc, hhead⟩ := ht.head
  have hleft : trimLeft (before ++ (inside ++ after)) = inside ++ after :=
    dropWhile_blanks hbefore ⟨c, by rw [List.head?_append, hc, Option.some_or], hhead⟩
  have hright : (after.reverse ++ inside.reverse).dropWhile isBlank = inside.reverse :=
    dropWhile_blanks (fun d hd => hafter d (List.mem_reverse.mp hd)) (by simpa using ht.last)
  rw [trim, hleft, trimRight, List.reverse_append, hright, List.reverse_reverse]

end ToolScript.Text
