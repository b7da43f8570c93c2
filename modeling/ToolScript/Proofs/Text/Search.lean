import ToolScript.Text.Pattern

/-! # What a search finds

    A search is determined by where a pattern matches: it finds a match that no other match begins before. A
    pattern that spells out a set of marks matches by the mark alone, whatever follows; for such a pattern the
    search of a longer text goes on from the search of a shorter one. -/

namespace ToolScript.Text

/-! ### Texts that overlap -/

theorem exists_end_of_length_lt {t r a s : List Char} (h : t ++ r = a ++ s) (hlt : a.length < t.length) :
    ∃ x, x ≠ [] ∧ t = a ++ x ∧ x ++ r = s := by
  have ha : a <+: t ++ r := ⟨s, h.symm⟩
  obtain ⟨x, rfl⟩ := List.prefix_of_prefix_length_le ha (List.prefix_append t r) (Nat.le_of_lt hlt)
  rw [List.append_assoc] at h
  refine ⟨x, ?_, rfl, List.append_cancel_left h⟩
  rintro rfl
  simp at hlt

theorem mem_of_append_eq_cons {c : Char} {x r s : List Char} (hx : x ≠ []) (h : x ++ r = c :: s) : c ∈ x := by
  cases x with
  | nil => exact absurd rfl hx
  | cons d x =>
    rw [List.cons_append, List.cons.injEq] at h
    rw [h.1]
    exact List.mem_cons_self

/-- A character of the text that stands nowhere but at the beginning of the mark is its first one. -/
theorem eq_nil_of_not_mem_tail {c : Char} {t a b x : List Char} (ht : c ∉ t.tail) (hx : x.head? = some c)
    (h : t = a ++ (x ++ b)) : a = [] := by
  cases a with
  | nil => rfl
  | cons d a =>
    obtain ⟨x', rfl⟩ := List.head?_eq_some_iff.mp hx
    refine absurd ?_ ht
    simp [h]

/-- What stands before the first `c` of a text. -/
theorem eq_of_ended_prefix {a b s : List Char} {c : Char} (ha : a ++ [c] <+: s) (hb : b ++ [c] <+: s) (hca : c ∉ a)
    (hcb : c ∉ b) : a = b := by
  rcases List.prefix_or_prefix_of_prefix ha hb with h | h
  · rcases List.prefix_concat_iff.mp h with h | h
    · exact List.append_cancel_right h
    · exact absurd (h.subset (by simp)) hcb
  · rcases List.prefix_concat_iff.mp h with h | h
    · exact (List.append_cancel_right h).symm
    · exact absurd (h.subset (by simp)) hca

namespace Pattern

variable {α : Type} {p : Pattern α} {s u : List Char} {h : Hit α}

@[simp] theorem match?_nil (p : Pattern α) : p.match? [] = none := by
  cases hm : p.match? [] with
  | none => rfl
  | some m => exact absurd (List.append_eq_nil_iff.mp (p.eq_append hm).symm).1 (p.text_ne_nil hm)

theorem match?_length_pos {m : Match α} (hm : p.match? s = some m) : 0 < m.text.length :=
  List.length_pos_iff.mpr (p.text_ne_nil hm)

/-! ### Leftmost matches -/

theorem search_eq_none_iff : p.search s = none ↔ ∀ b, b <:+ s → p.match? b = none := by
  induction s with
  | nil => simp
  | cons c s ih =>
    rw [search_cons]
    constructor
    · intro hn b hb
      split at hn
      · cases hn
      · rename_i hc
        rcases List.suffix_cons_iff.mp hb with rfl | hb
        · exact hc
        · exact ih.mp (Option.map_eq_none_iff.mp hn) b hb
    · intro hn
      rw [hn _ List.suffix_rfl]
      exact Option.map_eq_none_iff.mpr (ih.mpr fun b hb => hn b (hb.trans (List.suffix_cons c s)))

theorem match?_before_search (found : p.search s = some h) {b : List Char} (hb : b <:+ s)
    (hlt : (h.text ++ h.rest).length < b.length) : p.match? b = none := by
  induction s generalizing h with
  | nil => simp at found
  | cons c s ih =>
    rw [search_cons] at found
    split at found
    · rename_i m hm
      cases found
      have hle := hb.length_le
      rw [p.eq_append hm] at hle
      exact absurd hlt (Nat.not_lt.mpr hle)
    · rename_i hc
      obtain ⟨h', found', rfl⟩ := Option.map_eq_some_iff.mp found
      rcases List.suffix_cons_iff.mp hb with rfl | hb
      · exact hc
      · exact @ih h' found' hb hlt

theorem search_eq_some_iff : p.search s = some h ↔
    s = h.before ++ (h.text ++ h.rest) ∧ p.match? (h.text ++ h.rest) = some h.toMatch ∧
      ∀ b, b <:+ s → (h.text ++ h.rest).length < b.length → p.match? b = none := by
  refine ⟨fun found => ⟨search_eq_append found, match?_of_search found, fun _ => match?_before_search found⟩, ?_⟩
  rintro ⟨hs, hm, hleast⟩
  have hsuffix : h.text ++ h.rest <:+ s := ⟨h.before, hs.symm⟩
  cases hq : p.search s with
  | none => rw [search_eq_none_iff.mp hq _ hsuffix] at hm; cases hm
  | some q =>
    -- Neither of the two hits begins before the other, so they are the same match of the same rest.
    have hq' : q.text ++ q.rest <:+ s := ⟨q.before, (search_eq_append hq).symm⟩
    have hlen : (q.text ++ q.rest).length = (h.text ++ h.rest).length := by
      rcases Nat.lt_trichotomy (q.text ++ q.rest).length (h.text ++ h.rest).length with hlt | heq | hgt
      · rw [match?_before_search hq hsuffix hlt] at hm; cases hm
      · exact heq
      · have := match?_of_search hq
        rw [hleast _ hq' hgt] at this
        cases this
    have hrest : q.text ++ q.rest = h.text ++ h.rest :=
      (List.suffix_of_suffix_length_le hq' hsuffix (Nat.le_of_eq hlen)).eq_of_length hlen
    have hmatch : q.toMatch = h.toMatch := by
      have := match?_of_search hq
      rw [hrest, hm] at this
      exact (Option.some.inj this).symm
    have hbefore : q.before = h.before := by
      have := (search_eq_append hq).symm.trans hs
      rw [hrest] at this
      exact List.append_cancel_right this
    obtain ⟨qm, qb⟩ := q
    obtain ⟨hm', hb'⟩ := h
    simp only at hmatch hbefore
    rw [hmatch, hbefore]

theorem search_append (a : List Char) (hn : ∀ b, b <:+ a → b ≠ [] → p.match? (b ++ s) = none) :
    p.search (a ++ s) = (p.search s).map fun h => { h with before := a ++ h.before } := by
  induction a with
  | nil => simp
  | cons c a ih =>
    rw [List.cons_append, search_cons]
    have hc := hn (c :: a) List.suffix_rfl (by simp)
    rw [List.cons_append] at hc
    rw [hc, ih fun b hb => hn b (hb.trans (List.suffix_cons c a)), Option.map_map]
    rfl

theorem cut_of_none (hn : p.search s = none) : p.cut s = ⟨[], s⟩ := by
  rw [cut]
  split
  · rfl
  · rename_i h' found'
    rw [hn] at found'
    cases found'

theorem cut_of_some (found : p.search s = some h) :
    p.cut s = ⟨(h.before, h.toMatch) :: (p.cut h.rest).hits, (p.cut h.rest).last⟩ := by
  rw [cut]
  split
  · rename_i hn
    rw [found] at hn
    cases hn
  · rename_i h' found'
    rw [found] at found'
    cases found'
    rfl

/-! ### Removing matches -/

theorem search_of_match? {m : Match α} (hm : p.match? s = some m) : p.search s = some ⟨m, []⟩ := by
  cases s with
  | nil => simp at hm
  | cons c s => rw [search_cons, hm]

theorem remove_of_none (hn : p.search s = none) : p.remove s = s := by
  simp [remove, cut_of_none hn, Pieces.gaps]

theorem remove_of_some (found : p.search s = some h) : p.remove s = h.before ++ p.remove h.rest := by
  simp [remove, cut_of_some found, Pieces.gaps]

theorem remove_of_match? {m : Match α} (hm : p.match? s = some m) : p.remove s = p.remove m.rest :=
  remove_of_some (search_of_match? hm)

/-- A text in which no match begins stays. -/
theorem remove_append {a : List Char} (hn : ∀ b, b <:+ a → b ≠ [] → p.match? (b ++ s) = none) :
    p.remove (a ++ s) = a ++ p.remove s := by
  have hs := search_append a hn
  cases found : p.search s with
  | none =>
    rw [found, Option.map_none] at hs
    rw [remove_of_none hs, remove_of_none found]
  | some k =>
    rw [found, Option.map_some] at hs
    rw [remove_of_some hs, remove_of_some found, List.append_assoc]

/-! ### Patterns that spell out marks -/

/-- The pattern matches exactly where one of the marks stands, with the mark's meaning and whatever follows it. -/
def Spells (p : Pattern α) (M : List Char → α → Prop) : Prop :=
  ∀ s m, p.match? s = some m ↔ s = m.text ++ m.rest ∧ M m.text m.value

/-- The first mark in a text. -/
structure First (M : List Char → α → Prop) (s before mark : List Char) (v : α) (rest : List Char) : Prop where
  whole : s = before ++ (mark ++ rest)
  mark : M mark v
  least : ∀ a t w r, s = a ++ (t ++ r) → M t w → before.length ≤ a.length

/-- No mark stands in a text. -/
def Free (M : List Char → α → Prop) (s : List Char) : Prop :=
  ∀ a t w r, s = a ++ (t ++ r) → ¬M t w

/-- A mark has another one inside it at its beginning at most. -/
def Apart (M : List Char → α → Prop) : Prop :=
  ∀ ⦃t v t' v' a b⦄, M t v → M t' v' → t = a ++ (t' ++ b) → a = []

theorem First.of_mark {M : List Char → α → Prop} {mark : List Char} {v : α} (h : M mark v) (rest : List Char) :
    First M (mark ++ rest) [] mark v rest :=
  ⟨rfl, h, fun _ _ _ _ _ _ => Nat.zero_le _⟩

/-- Marks that begin before `mark` do not reach into it. -/
def Unreached (M : List Char → α → Prop) (mark : List Char) : Prop :=
  ∀ ⦃x y w⦄, M (x ++ y) w → x ≠ [] → y ≠ [] → ¬y <+: mark ∧ ¬mark <+: y

section
variable {M : List Char → α → Prop} {c : Char} {body mark rest : List Char} {v : α}

theorem Unreached.of_head (hM : ∀ {t w}, M t w → c ∉ t.tail) (hmark : mark.head? = some c) : Unreached M mark := by
  obtain ⟨mark, rfl⟩ := List.head?_eq_some_iff.mp hmark
  intro x y w hxy hx hy
  obtain ⟨d, x, rfl⟩ := List.exists_cons_of_ne_nil hx
  obtain ⟨e, y, rfl⟩ := List.exists_cons_of_ne_nil hy
  have hc : c ≠ e := by
    rintro rfl
    exact hM hxy (by simp)
  exact ⟨fun h => hc (List.cons_prefix_cons.mp h).1.symm, fun h => hc (List.cons_prefix_cons.mp h).1⟩

theorem Unreached.of_not_mem (hM : ∀ {t w}, M t w → c ∉ t) (hmark : mark.head? = some c) : Unreached M mark :=
  .of_head (fun ht h => hM ht (List.mem_of_mem_tail h)) hmark

theorem Unreached.or {N : List Char → α → Prop} (hM : Unreached M mark) (hN : Unreached N mark) :
    Unreached (fun t w => M t w ∨ N t w) mark :=
  fun _ _ _ h hx hy => h.elim (fun h => hM h hx hy) fun h => hN h hx hy

theorem Unreached.mono {N : List Char → α → Prop} (hM : Unreached M mark) (h : ∀ {t w}, N t w → M t w) :
    Unreached N mark :=
  fun _ _ _ hN hx hy => hM (h hN) hx hy

/-- A mark of which no end is its beginning does not reach into itself. -/
theorem Unreached.of_self (h : ∀ y, y <:+ mark.tail → y ≠ [] → ¬y <+: mark) :
    Unreached (fun t (_ : α) => t = mark) mark := by
  rintro x y - rfl hx hy
  obtain ⟨c, x, rfl⟩ := List.exists_cons_of_ne_nil hx
  refine ⟨h y ⟨x, rfl⟩ hy, fun hle => ?_⟩
  have := hle.length_le
  simp only [List.length_append, List.length_cons] at this
  omega

/-- Where no mark stands in a text and none reaches into what follows it, none begins in the text. -/
theorem Unreached.not_begins (hU : Unreached M mark) (hfree : ∀ t w, M t w → ¬t <:+: body) {b t : List Char} {w : α}
    (hb : b <:+ body) (hne : b ≠ []) (ht : M t w) : ¬t <+: b ++ (mark ++ rest) := by
  rintro ⟨r, h⟩
  rcases List.append_eq_append_iff.mp h with ⟨y, hy, -⟩ | ⟨y, rfl, hr⟩
  · refine hfree t w ht (List.IsInfix.trans ?_ hb.isInfix)
    exact ⟨[], y, by rw [hy, List.nil_append]⟩
  · by_cases hy : y = []
    · subst hy
      rw [List.append_nil] at ht
      exact hfree b w ht hb.isInfix
    · have hpre : y <+: mark ++ rest := ⟨r, hr.symm⟩
      obtain ⟨h₁, h₂⟩ := hU ht hne hy
      exact (List.prefix_or_prefix_of_prefix hpre (List.prefix_append mark rest)).elim h₁ h₂

/-- A mark into which no other reaches is the first of a text when none stands in what is before it. -/
theorem first_append_iff (hM : ∀ {t w}, M t w → t ≠ []) (hU : M mark v → Unreached M mark) :
    First M (body ++ (mark ++ rest)) body mark v rest ↔ M mark v ∧ ∀ t w, M t w → ¬t <:+: body := by
  constructor
  · intro h
    refine ⟨h.mark, fun t w ht => ?_⟩
    rintro ⟨a, r, rfl⟩
    have hle := h.least a t w (r ++ (mark ++ rest)) (by simp) ht
    have := List.length_pos_iff.mpr (hM ht)
    simp only [List.length_append] at hle
    omega
  · rintro ⟨hmark, hfree⟩
    refine ⟨rfl, hmark, fun a t w r hs ht => Nat.le_of_not_lt fun hlt => ?_⟩
    obtain ⟨x, hx, rfl, hx'⟩ := exists_end_of_length_lt hs hlt
    exact (hU hmark).not_begins hfree (List.suffix_append a x) hx ht ⟨r, hx'.symm⟩

end

namespace Spells
variable {M : List Char → α → Prop}

theorem match?_append_of_mark (hp : p.Spells M) {t : List Char} {v : α} (ht : M t v) (r : List Char) :
    p.match? (t ++ r) = some ⟨v, t, r⟩ :=
  (hp _ ⟨v, t, r⟩).mpr ⟨rfl, ht⟩

theorem match?_extend (hp : p.Spells M) {m : Match α} (hm : p.match? s = some m) (u : List Char) :
    p.match? (s ++ u) = some ⟨m.value, m.text, m.rest ++ u⟩ := by
  obtain ⟨rfl, ht⟩ := (hp s m).mp hm
  exact (hp _ _).mpr ⟨by simp, ht⟩

/-- A match that is not there without the later text ends in the later text. -/
theorem match?_append_split (hp : p.Spells M) {m : Match α} (hn : p.match? s = none)
    (hm : p.match? (s ++ u) = some m) : ∃ x, x ≠ [] ∧ m.text = s ++ x ∧ u = x ++ m.rest := by
  obtain ⟨hsu, ht⟩ := (hp _ m).mp hm
  rcases List.append_eq_append_iff.mp hsu with ⟨x, hx, hu⟩ | ⟨x, hs, -⟩
  · refine ⟨x, ?_, hx, hu⟩
    rintro rfl
    rw [List.append_nil] at hx
    have := hp.match?_append_of_mark ht []
    rw [List.append_nil, hx, hn] at this
    cases this
  · rw [hs, hp.match?_append_of_mark ht x] at hn
    cases hn

theorem search_eq_none_iff (hp : p.Spells M) : p.search s = none ↔ Free M s := by
  rw [Pattern.search_eq_none_iff]
  constructor
  · intro hn a t v r hs ht
    have := hn (t ++ r) ⟨a, hs.symm⟩
    rw [hp.match?_append_of_mark ht r] at this
    cases this
  · rintro hfree b ⟨a, rfl⟩
    cases hm : p.match? b with
    | none => rfl
    | some m =>
      obtain ⟨rfl, ht⟩ := (hp b m).mp hm
      exact absurd ht (hfree a _ _ _ rfl)

theorem search_eq_some_iff (hp : p.Spells M) :
    p.search s = some h ↔ First M s h.before h.text h.value h.rest := by
  constructor
  · intro found
    refine ⟨search_eq_append found, ((hp _ _).mp (match?_of_search found)).2, fun a t v r hs ht => ?_⟩
    refine Nat.le_of_not_lt fun hlt => ?_
    have hm := match?_before_search found (b := t ++ r) ⟨a, hs.symm⟩ (by
      have := congrArg List.length (hs.symm.trans (search_eq_append found))
      simp only [List.length_append] at this hlt ⊢
      omega)
    rw [hp.match?_append_of_mark ht r] at hm
    cases hm
  · rintro ⟨hs, ht, hleast⟩
    refine Pattern.search_eq_some_iff.mpr ⟨hs, hp.match?_append_of_mark ht h.rest, ?_⟩
    rintro b ⟨a, hab⟩ hlt
    cases hm : p.match? b with
    | none => rfl
    | some m =>
      obtain ⟨rfl, ht'⟩ := (hp b m).mp hm
      have := hleast a _ _ _ hab.symm ht'
      have := congrArg List.length (hab.trans hs)
      simp only [List.length_append] at this hlt
      omega

/-- What a search has found stays the first match when the text goes on. -/
theorem search_append_of_some (hp : p.Spells M) (apart : Apart M) (found : p.search s = some h) (u : List Char) :
    p.search (s ++ u) = some ⟨⟨h.value, h.text, h.rest ++ u⟩, h.before⟩ := by
  induction s generalizing h with
  | nil => simp at found
  | cons c s ih =>
    rw [search_cons] at found
    rw [List.cons_append, search_cons]
    split at found
    · rename_i m hm
      cases found
      have := hp.match?_extend hm u
      rw [List.cons_append] at this
      rw [this]
    · rename_i hc
      obtain ⟨h', found', rfl⟩ := Option.map_eq_some_iff.mp found
      cases hm : p.match? (c :: (s ++ u)) with
      | none => simp only [ih found']; rfl
      | some m =>
        -- A match that ends in `u` would have the mark found in `s` inside it.
        obtain ⟨x, -, hx, -⟩ := hp.match?_append_split (s := c :: s) hc hm
        rw [search_eq_append found'] at hx
        have := apart ((hp _ _).mp hm).2 ((hp _ _).mp (match?_of_search found')).2
          (a := c :: h'.before) (b := h'.rest ++ x) (by simp [hx])
        cases this

end Spells

end Pattern
end ToolScript.Text
