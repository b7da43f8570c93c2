/-! # Patterns and leftmost search

    A pattern says how a text may begin and what then follows; it never matches the empty text. `search` finds
    the leftmost match in a text, and `cut` divides a text at its matches from left to right. A search splits
    the text into the part before the match, the match as written, and the part after it, and loses nothing. -/

namespace ToolScript.Text

/-- The beginning of a text that a pattern takes: its meaning, the characters, and what follows them. -/
structure Match (α : Type) where
  value : α
  text : List Char
  rest : List Char

/-- A way for a text to begin. -/
structure Pattern (α : Type) where
  match? : List Char → Option (Match α)
  text_ne_nil : ∀ {s m}, match? s = some m → m.text ≠ []
  eq_append : ∀ {s m}, match? s = some m → s = m.text ++ m.rest

/-- A match inside a text, with what stands before it. -/
structure Hit (α : Type) extends Match α where
  before : List Char

/-! ### Search -/

def Pattern.searchFrom {α : Type} (p : Pattern α) (passed : List Char) : List Char → Option (Hit α)
  | [] => none
  | c :: s => match p.match? (c :: s) with
    | some m => some { m with before := passed.reverse }
    | none => p.searchFrom (c :: passed) s

/-- The leftmost match in a text. -/
def Pattern.search {α : Type} (p : Pattern α) (s : List Char) : Option (Hit α) :=
  p.searchFrom [] s

theorem Pattern.searchFrom_eq {α : Type} (p : Pattern α) (passed s : List Char) :
    p.searchFrom passed s = (p.search s).map fun h => { h with before := passed.reverse ++ h.before } := by
  induction s generalizing passed with
  | nil => rfl
  | cons c s ih =>
    rw [search, searchFrom, searchFrom]
    split
    · simp
    · rw [ih, ih [c], Option.map_map]
      congr 1
      funext h
      simp

@[simp] theorem Pattern.search_nil {α : Type} (p : Pattern α) : p.search [] = none := rfl

theorem Pattern.search_cons {α : Type} (p : Pattern α) (c : Char) (s : List Char) :
    p.search (c :: s) = match p.match? (c :: s) with
      | some m => some { m with before := [] }
      | none => (p.search s).map fun h => { h with before := c :: h.before } := by
  rw [search, searchFrom]
  split
  · rfl
  · rw [searchFrom_eq]; rfl

/-- A search splits its text into what is before the match, the match, and what is after it. -/
theorem Pattern.search_eq_append {α : Type} {p : Pattern α} {s : List Char} {h : Hit α} (found : p.search s = some h) :
    s = h.before ++ (h.text ++ h.rest) := by
  induction s generalizing h with
  | nil => simp at found
  | cons c s ih =>
    rw [search_cons] at found
    split at found
    · rename_i m hm
      cases found
      simpa using p.eq_append hm
    · obtain ⟨h', found', rfl⟩ := Option.map_eq_some_iff.mp found
      simpa using ih found'

theorem Pattern.match?_of_search {α : Type} {p : Pattern α} {s : List Char} {h : Hit α} (found : p.search s = some h) :
    p.match? (h.text ++ h.rest) = some h.toMatch := by
  induction s generalizing h with
  | nil => simp at found
  | cons c s ih =>
    rw [search_cons] at found
    split at found
    · rename_i m hm
      cases found
      show p.match? (m.text ++ m.rest) = some m
      rw [← p.eq_append hm, hm]
    · obtain ⟨h', found', rfl⟩ := Option.map_eq_some_iff.mp found
      exact @ih h' found'

theorem Pattern.rest_length_lt {α : Type} {p : Pattern α} {s : List Char} {h : Hit α} (found : p.search s = some h) :
    h.rest.length < s.length := by
  have nonempty := p.text_ne_nil (match?_of_search found)
  have whole := congrArg List.length (search_eq_append found)
  have := List.length_pos_iff.mpr nonempty
  simp only [List.length_append] at whole
  omega

/-! ### Cutting a text at its matches -/

/-- A text divided at the matches of a pattern: each match with the gap before it, and the text after the last. -/
structure Pieces (α : Type) where
  hits : List (List Char × Match α)
  last : List Char

def Pattern.cut {α : Type} (p : Pattern α) (s : List Char) : Pieces α :=
  match _found : p.search s with
  | none => ⟨[], s⟩
  | some h =>
    let more := p.cut h.rest
    ⟨(h.before, h.toMatch) :: more.hits, more.last⟩
termination_by s.length
decreasing_by exact rest_length_lt (by assumption)

/-- The text between and around the matches. -/
def Pieces.gaps {α : Type} (d : Pieces α) : List Char :=
  d.hits.flatMap (·.1) ++ d.last

/-- The text with every match replaced. -/
def Pieces.replace {α : Type} (f : α → List Char) (d : Pieces α) : List Char :=
  (d.hits.flatMap fun (gap, m) => gap ++ f m.value) ++ d.last

/-- The text with every match removed. -/
def Pattern.remove {α : Type} (p : Pattern α) (s : List Char) : List Char :=
  (p.cut s).gaps

/-! ### Spelled-out texts -/

/-- Takes a character of each of the given classes from the front of a text. -/
def spelled : List (Char → Bool) → List Char → Option (List Char × List Char)
  | [], s => some ([], s)
  | is :: classes, c :: s => if is c then (spelled classes s).map fun r => (c :: r.1, r.2) else none
  | _ :: _, [] => none

theorem spelled_eq_append {classes : List (Char → Bool)} {s : List Char} {r : List Char × List Char}
    (h : spelled classes s = some r) : s = r.1 ++ r.2 ∧ r.1.length = classes.length := by
  induction classes generalizing s r with
  | nil => simp only [spelled, Option.some.injEq] at h; simp [← h]
  | cons is classes ih =>
    cases s with
    | nil => simp [spelled] at h
    | cons c s =>
      simp only [spelled] at h
      split at h
      · obtain ⟨r', h', rfl⟩ := Option.map_eq_some_iff.mp h
        have := ih h'
        exact ⟨by simp [← this.1], by simp [this.2]⟩
      · simp at h

/-- The pattern of a text with a character of each class in turn; no class at all is nowhere found. -/
def Pattern.classes (classes : List (Char → Bool)) : Pattern (List Char) where
  match? s := if classes = [] then none else (spelled classes s).map fun r => ⟨r.1, r.1, r.2⟩
  text_ne_nil := by
    intro s m h
    split at h
    · simp at h
    · rename_i nonempty
      obtain ⟨r, taken, rfl⟩ := Option.map_eq_some_iff.mp h
      intro (empty : r.1 = [])
      have := (spelled_eq_append taken).2
      rw [empty] at this
      exact nonempty (List.length_eq_zero_iff.mp this.symm)
  eq_append := by
    intro s m h
    split at h
    · simp at h
    · obtain ⟨r, taken, rfl⟩ := Option.map_eq_some_iff.mp h
      exact (spelled_eq_append taken).1

/-- A pattern with another meaning. -/
def Pattern.map {α β : Type} (f : α → β) (p : Pattern α) : Pattern β where
  match? s := (p.match? s).map fun m => ⟨f m.value, m.text, m.rest⟩
  text_ne_nil := by
    intro s m h
    obtain ⟨m', h', rfl⟩ := Option.map_eq_some_iff.mp h
    exact p.text_ne_nil h'
  eq_append := by
    intro s m h
    obtain ⟨m', h', rfl⟩ := Option.map_eq_some_iff.mp h
    exact p.eq_append h'

/-- The pattern of characters that are each the `same` as a letter; the empty text is nowhere found. -/
def Pattern.letters (same : Char → Char → Bool) (letters : List Char) : Pattern Unit :=
  (Pattern.classes (letters.map same)).map fun _ => ()

/-- The pattern of a text written exactly so. -/
def Pattern.exactly (letters : List Char) : Pattern Unit :=
  .letters (· == ·) letters

/-- A letter and a character that differ at most in ASCII case. -/
def sameLetter (l c : Char) : Bool :=
  l.toLower == c.toLower

/-- The pattern of a text in any ASCII case. -/
def Pattern.anyCase (letters : List Char) : Pattern Unit :=
  .letters sameLetter letters

/-- Either pattern, the first where both match. -/
def Pattern.or {α : Type} (p q : Pattern α) : Pattern α where
  match? s := (p.match? s).or (q.match? s)
  text_ne_nil := by
    intro s m h
    rcases Option.or_eq_some_iff.mp h with h | ⟨-, h⟩
    · exact p.text_ne_nil h
    · exact q.text_ne_nil h
  eq_append := by
    intro s m h
    rcases Option.or_eq_some_iff.mp h with h | ⟨-, h⟩
    · exact p.eq_append h
    · exact q.eq_append h

/-- The pattern that matches nowhere. -/
def Pattern.never {α : Type} : Pattern α where
  match? _ := none
  text_ne_nil := by simp
  eq_append := by simp

/-- The first of several patterns that matches. -/
def Pattern.oneOf {α : Type} (ps : List (Pattern α)) : Pattern α :=
  ps.foldr .or .never

/-! ### Enclosed texts -/

/-- A text between two marks, with the marks as written and the meaning of the first. -/
structure Enclosed (α : Type) where
  mark : α
  opening : List Char
  body : List Char
  closing : List Char

/-- The whole of an enclosed text. -/
def Enclosed.raw {α : Type} (e : Enclosed α) : List Char :=
  e.opening ++ (e.body ++ e.closing)

/-- From a mark to the first closing mark after it. -/
def Pattern.enclosed {α : Type} (start : Pattern α) (stop : α → Pattern Unit) : Pattern (Enclosed α) where
  match? s := (start.match? s).bind fun m => ((stop m.value).search m.rest).map fun h =>
    let e : Enclosed α := ⟨m.value, m.text, h.before, h.text⟩
    ⟨e, e.raw, h.rest⟩
  text_ne_nil := by
    intro s m found
    obtain ⟨m', h', found⟩ := Option.bind_eq_some_iff.mp found
    obtain ⟨h, -, rfl⟩ := Option.map_eq_some_iff.mp found
    simp [Enclosed.raw, start.text_ne_nil h']
  eq_append := by
    intro s m found
    obtain ⟨m', h', found⟩ := Option.bind_eq_some_iff.mp found
    obtain ⟨h, closed, rfl⟩ := Option.map_eq_some_iff.mp found
    simp [Enclosed.raw, start.eq_append h', search_eq_append closed]

end ToolScript.Text
