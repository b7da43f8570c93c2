import Mathlib
import ToolScript.Proofs.Text.Search

/-! # What the patterns of texts spell out

    A pattern of classes spells out the texts with a character of each class in turn, a pattern of letters those
    that agree with the letters one by one. ASCII case changes letters into letters only, so a text with another
    character in it is found as it is written. -/

namespace ToolScript.Text

/-! ### ASCII case -/

theorem eq_of_toLower_eq {l c : Char} (hl : l.isAlpha = false) (h : c.toLower = l) : c = l := by
  by_cases hc : c.isUpper = true
  · have := Char.isAlpha_toLower_eq_isAlpha c
    rw [h, hl] at this
    simp [Char.isAlpha, hc] at this
  · rw [← h, Char.toLower_eq_of_not_isUpper hc]

theorem eq_of_toUpper_eq {l c : Char} (hl : l.isAlpha = false) (h : c.toUpper = l) : c = l := by
  by_cases hc : c.isLower = true
  · have := Char.isAlpha_toUpper_eq_isAlpha c
    rw [h, hl] at this
    simp [Char.isAlpha, hc] at this
  · rw [← h, Char.toUpper_eq_of_not_isLower hc]

theorem sameLetter_iff {l c : Char} : sameLetter l c = true ↔ l.toLower = c.toLower := by
  simp [sameLetter]

theorem toLower_of_not_isAlpha {l : Char} (hl : l.isAlpha = false) : l.toLower = l :=
  Char.toLower_eq_of_not_isUpper fun h => by simp [Char.isAlpha, h] at hl

/-- A text without letters is the same as another in ASCII case only if it is that text. -/
theorem eq_of_map_toLower_eq {ls t : List Char} (hl : ∀ l ∈ ls, l.isAlpha = false)
    (h : t.map Char.toLower = ls.map Char.toLower) : t = ls := by
  induction ls generalizing t with
  | nil => simpa using h
  | cons l ls ih =>
    cases t with
    | nil => simp at h
    | cons c t =>
      simp only [List.map_cons, List.cons.injEq] at h
      have hc : l.isAlpha = false := hl l List.mem_cons_self
      rw [eq_of_toLower_eq hc (h.1.trans (toLower_of_not_isAlpha hc)),
        ih (fun x hx => hl x (List.mem_cons_of_mem _ hx)) h.2]

/-- A character that is no capital letter stands in a text where it stands in the lower case of the text. -/
theorem mem_of_mem_map_toLower {l : Char} {t : List Char} (hl : l.isAlpha = false) (h : l ∈ t.map Char.toLower) :
    l ∈ t := by
  obtain ⟨c, hc, h⟩ := List.mem_map.mp h
  exact eq_of_toLower_eq hl h ▸ hc

theorem mem_of_mem_map_toUpper {l : Char} {t : List Char} (hl : l.isAlpha = false) (h : l ∈ t.map Char.toUpper) :
    l ∈ t := by
  obtain ⟨c, hc, h⟩ := List.mem_map.mp h
  exact eq_of_toUpper_eq hl h ▸ hc

theorem map_toUpper_eq_iff {s t : List Char} :
    s.map Char.toUpper = t.map Char.toUpper ↔ s.map Char.toLower = t.map Char.toLower := by
  constructor
  · intro h
    simpa [Function.comp_def, Char.toLower_toUpper_eq_toLower] using congrArg (List.map Char.toLower) h
  · intro h
    simpa [Function.comp_def, Char.toUpper_toLower_eq_toUpper] using congrArg (List.map Char.toUpper) h

/-! ### Classes -/

theorem forall₂_append_left_iff {α β : Type} {R : α → β → Prop} {l l' : List α} {u : List β} :
    List.Forall₂ R (l ++ l') u ↔ ∃ a b, List.Forall₂ R l a ∧ List.Forall₂ R l' b ∧ u = a ++ b := by
  constructor
  · intro h
    induction l generalizing u with
    | nil => exact ⟨[], u, .nil, h, rfl⟩
    | cons x l ih =>
      obtain ⟨y, u', hxy, hu, rfl⟩ := List.forall₂_cons_left_iff.mp h
      obtain ⟨a, b, ha, hb, rfl⟩ := ih hu
      exact ⟨y :: a, b, .cons hxy ha, hb, rfl⟩
  · rintro ⟨a, b, ha, hb, rfl⟩
    exact List.rel_append ha hb

/-- A text with a character of each class in turn. -/
def OfClasses (classes : List (Char → Bool)) (t : List Char) : Prop :=
  List.Forall₂ (fun is c => is c = true) classes t

theorem spelled_eq_some_iff {classes : List (Char → Bool)} {s t r : List Char} :
    spelled classes s = some (t, r) ↔ s = t ++ r ∧ OfClasses classes t := by
  induction classes generalizing s t r with
  | nil =>
    simp only [spelled, OfClasses, List.forall₂_nil_left_iff, Option.some.injEq, Prod.mk.injEq]
    constructor
    · rintro ⟨rfl, rfl⟩
      exact ⟨rfl, rfl⟩
    · rintro ⟨rfl, rfl⟩
      exact ⟨rfl, rfl⟩
  | cons is classes ih =>
    rw [OfClasses, List.forall₂_cons_left_iff]
    cases s with
    | nil =>
      refine ⟨fun h => by simp [spelled] at h, ?_⟩
      rintro ⟨h, c, t', -, -, rfl⟩
      simp at h
    | cons c s =>
      simp only [spelled]
      split
      · rename_i hc
        simp only [Option.map_eq_some_iff, Prod.exists, Prod.mk.injEq]
        constructor
        · rintro ⟨t', r', h', rfl, rfl⟩
          obtain ⟨rfl, ht⟩ := ih.mp h'
          exact ⟨rfl, c, t', hc, ht, rfl⟩
        · rintro ⟨h, c', t', -, ht, rfl⟩
          rw [List.cons_append, List.cons.injEq] at h
          obtain ⟨rfl, rfl⟩ := h
          exact ⟨t', r, ih.mpr ⟨rfl, ht⟩, rfl, rfl⟩
      · rename_i hc
        refine ⟨fun h => (by cases h), ?_⟩
        rintro ⟨h, c', t', hc', -, rfl⟩
        rw [List.cons_append, List.cons.injEq] at h
        rw [← h.1] at hc'
        exact absurd hc' hc

namespace Pattern
variable {α β : Type}

theorem classes_spells {classes : List (Char → Bool)} (hne : classes ≠ []) :
    (Pattern.classes classes).Spells fun t v => OfClasses classes t ∧ v = t := by
  intro s m
  simp only [Pattern.classes, hne, if_false, Option.map_eq_some_iff, Prod.exists, spelled_eq_some_iff]
  constructor
  · rintro ⟨t, r, ⟨rfl, ht⟩, rfl⟩
    exact ⟨rfl, ht, rfl⟩
  · rintro ⟨rfl, ht, hv⟩
    obtain ⟨v, t, r⟩ := m
    obtain rfl : v = t := hv
    exact ⟨v, r, ⟨rfl, ht⟩, rfl⟩

theorem Spells.map {p : Pattern α} {M : List Char → α → Prop} (hp : p.Spells M) (f : α → β) :
    (p.map f).Spells fun t w => ∃ v, M t v ∧ w = f v := by
  intro s m
  simp only [Pattern.map, Option.map_eq_some_iff]
  constructor
  · rintro ⟨m', hm, rfl⟩
    obtain ⟨rfl, ht⟩ := (hp s m').mp hm
    exact ⟨rfl, m'.value, ht, rfl⟩
  · rintro ⟨rfl, v, ht, hv⟩
    exact ⟨⟨v, m.text, m.rest⟩, hp.match?_append_of_mark ht m.rest, by rw [← hv]⟩

theorem Spells.congr {p : Pattern α} {M N : List Char → α → Prop} (hp : p.Spells M) (h : ∀ t v, M t v ↔ N t v) :
    p.Spells N := by
  intro s m
  rw [hp s m, h]

/-- Either of two patterns that never match at one place spells out the marks of both. -/
theorem Spells.or {p q : Pattern α} {M N : List Char → α → Prop} (hp : p.Spells M) (hq : q.Spells N)
    (disjoint : ∀ {t v t' v' r r'}, M t v → N t' v' → t ++ r ≠ t' ++ r') :
    (p.or q).Spells fun t v => M t v ∨ N t v := by
  intro s m
  simp only [Pattern.or, Option.or_eq_some_iff]
  constructor
  · rintro (hm | ⟨-, hm⟩)
    · obtain ⟨hs, ht⟩ := (hp s m).mp hm
      exact ⟨hs, Or.inl ht⟩
    · obtain ⟨hs, ht⟩ := (hq s m).mp hm
      exact ⟨hs, Or.inr ht⟩
  · rintro ⟨rfl, ht | ht⟩
    · exact Or.inl (hp.match?_append_of_mark ht m.rest)
    · refine Or.inr ⟨?_, hq.match?_append_of_mark ht m.rest⟩
      cases hm : p.match? (m.text ++ m.rest) with
      | none => rfl
      | some m' =>
        obtain ⟨hs, ht'⟩ := (hp _ m').mp hm
        exact absurd hs.symm (disjoint ht' ht)

theorem oneOf_match? (ps : List (Pattern α)) (s : List Char) :
    (Pattern.oneOf ps).match? s = ps.findSome? (·.match? s) := by
  induction ps with
  | nil => rfl
  | cons p ps ih =>
    show (p.match? s).or ((Pattern.oneOf ps).match? s) = _
    rw [ih, List.findSome?_cons]
    cases p.match? s with
    | none => rfl
    | some m => rfl

/-- The first of several patterns spells out the marks of all of them, if two of these marks never begin one text. -/
theorem oneOf_spells {ps : List (Pattern α)} {M : List Char → α → Prop}
    (hps : ∀ s m, (∃ p ∈ ps, p.match? s = some m) ↔ s = m.text ++ m.rest ∧ M m.text m.value)
    (agree : ∀ {t v t' v' r r'}, M t v → M t' v' → t ++ r = t' ++ r' → t = t' ∧ v = v') :
    (Pattern.oneOf ps).Spells M := by
  intro s m
  rw [oneOf_match?]
  constructor
  · intro h
    exact (hps s m).mp (List.exists_of_findSome?_eq_some h)
  · intro h
    obtain ⟨p, hp, hm⟩ := (hps s m).mpr h
    cases found : ps.findSome? (·.match? s) with
    | none =>
      rw [List.findSome?_eq_none_iff.mp found p hp] at hm
      cases hm
    | some m' =>
      obtain ⟨hs', hmark'⟩ := (hps s m').mp (List.exists_of_findSome?_eq_some found)
      obtain ⟨htext, hvalue⟩ := agree hmark' h.2 (hs'.symm.trans h.1)
      have hrest : m'.rest = m.rest := by
        have := hs'.symm.trans h.1
        rw [htext] at this
        exact List.append_cancel_left this
      obtain ⟨v, t, r⟩ := m
      obtain ⟨v', t', r'⟩ := m'
      simp only at htext hvalue hrest
      rw [htext, hvalue, hrest]

theorem letters_spells {same : Char → Char → Bool} {ls : List Char} (hne : ls ≠ []) :
    (Pattern.letters same ls).Spells fun t _ => List.Forall₂ (fun l c => same l c = true) ls t := by
  refine ((classes_spells (by simpa using hne)).map fun _ => ()).congr fun t v => ?_
  simp only [OfClasses, List.forall₂_map_left_iff]
  constructor
  · rintro ⟨-, ⟨ht, -⟩, -⟩
    exact ht
  · intro ht
    exact ⟨t, ⟨ht, rfl⟩, trivial⟩

theorem exactly_spells {ls : List Char} (hne : ls ≠ []) : (Pattern.exactly ls).Spells fun t _ => t = ls := by
  refine (letters_spells hne).congr fun t v => ?_
  simp only [beq_iff_eq, List.forall₂_eq_eq_eq]
  exact eq_comm

theorem anyCase_mark_iff {ls t : List Char} :
    List.Forall₂ (fun l c => sameLetter l c = true) ls t ↔ t.map Char.toLower = ls.map Char.toLower := by
  simp only [sameLetter_iff]
  rw [← List.forall₂_map_right_iff (f := Char.toLower) (R := fun a b => Char.toLower a = b),
    ← List.forall₂_map_left_iff (f := Char.toLower) (R := (· = ·)), List.forall₂_eq_eq_eq]
  exact eq_comm

theorem anyCase_spells {ls : List Char} (hne : ls ≠ []) :
    (Pattern.anyCase ls).Spells fun t _ => t.map Char.toLower = ls.map Char.toLower :=
  (letters_spells hne).congr fun _ _ => anyCase_mark_iff

end Pattern
end ToolScript.Text
