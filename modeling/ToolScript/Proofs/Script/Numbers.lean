import ToolScript.Proofs.Number.Digits
import ToolScript.Proofs.Number.Nearest
import ToolScript.Script.Lexer

/-! # Which rows of digits and points are numbers

    A number of a script is a row of digits and points that begins with a digit. Every such row with one point at most
    is a number, however long it is, and no other is. It is the integer that it writes if it has no point and 64 bits are
    enough, else the nearest floating-point number, which is infinite for rows that write too much. -/

namespace ToolScript.Script
open Text

/-! ### Rows of digits with a point -/

/-- Characters that are digits or points. -/
def IsRow (row : List Char) : Prop :=
  ∀ d ∈ row, d.isDigit = true ∨ d = '.'

/-- The number that the digits of a row write together. -/
def digitsOf (row : List Char) : Nat :=
  digitsValue (row.filter Char.isDigit)

/-- How many digits of a row stand behind its point. -/
def placesOf (row : List Char) : Nat :=
  (row.dropWhile (· != '.')).tail.length

theorem isNumberChar_iff {c : Char} : isNumberChar c = true ↔ c.isDigit = true ∨ c = '.' := by
  simp [isNumberChar]

theorem IsRow.isNumberChar {s : List Char} (hs : IsRow s) : ∀ d ∈ s, isNumberChar d = true := fun d hd =>
  isNumberChar_iff.mpr (hs d hd)

theorem isNumberChar_eq_false_iff {c : Char} : isNumberChar c = false ↔ c.isDigit = false ∧ c ≠ '.' := by
  simp [isNumberChar]

/-- A row of digits and points is one of digits alone, or has digits up to its first point and a row after it. -/
theorem IsRow.cases {s : List Char} (hs : IsRow s) :
    (∀ d ∈ s, d.isDigit = true) ∨ ∃ whole fraction, (∀ d ∈ whole, d.isDigit = true) ∧ s = whole ++ '.' :: fraction ∧
      IsRow fraction := by
  induction s with
  | nil => simp
  | cons c s ih =>
    obtain ⟨hc, hrest⟩ := List.forall_mem_cons.mp hs
    by_cases hd : c.isDigit = true
    · rcases ih hrest with h | ⟨whole, fraction, hwhole, rfl, hfraction⟩
      · exact Or.inl (List.forall_mem_cons.mpr ⟨hd, h⟩)
      · exact Or.inr ⟨c :: whole, fraction, List.forall_mem_cons.mpr ⟨hd, hwhole⟩, rfl, hfraction⟩
    · obtain rfl : c = '.' := hc.resolve_left hd
      exact Or.inr ⟨[], s, by simp, rfl, hrest⟩

section
variable {c : Char} {s row whole fraction : List Char}

theorem count_point_of_digits (hs : ∀ d ∈ s, d.isDigit = true) : s.count '.' = 0 := by
  refine List.count_eq_zero.mpr fun h => ?_
  have := hs '.' h
  cases this

theorem point_notMem_of_digits (hs : ∀ d ∈ s, d.isDigit = true) : '.' ∉ s :=
  List.count_eq_zero.mp (count_point_of_digits hs)

theorem ne_point_of_notMem (hpoint : '.' ∉ row) : ∀ d ∈ row, (d != '.') = true := fun _ hd =>
  bne_iff_ne.mpr fun h => hpoint (h ▸ hd)

theorem IsRow.isDigit (hs : IsRow s) (hpoint : '.' ∉ s) : ∀ d ∈ s, d.isDigit = true := fun d hd =>
  (hs d hd).resolve_right fun h => hpoint (h ▸ hd)

theorem digitsOf_digits (hs : ∀ d ∈ s, d.isDigit = true) : digitsOf s = digitsValue s := by
  rw [digitsOf, List.filter_eq_self.mpr hs]

theorem placesOf_eq_zero (hpoint : '.' ∉ row) : placesOf row = 0 := by
  rw [placesOf, List.dropWhile_eq_nil_iff.mpr (ne_point_of_notMem hpoint)]
  rfl

theorem digitsOf_point (hwhole : ∀ d ∈ whole, d.isDigit = true) (hfraction : ∀ d ∈ fraction, d.isDigit = true) :
    digitsOf (whole ++ '.' :: fraction) = digitsValue (whole ++ fraction) := by
  rw [digitsOf, List.filter_append, List.filter_cons_of_neg (by decide), List.filter_eq_self.mpr hwhole,
    List.filter_eq_self.mpr hfraction]

theorem placesOf_point (hwhole : ∀ d ∈ whole, d.isDigit = true) : placesOf (whole ++ '.' :: fraction) = fraction.length := by
  rw [placesOf, List.dropWhile_append_of_pos (ne_point_of_notMem (point_notMem_of_digits hwhole)),
    List.dropWhile_cons_of_neg (by simp), List.tail_cons]

/-! ### What rows stand for -/

/-- The number that a row of digits and points is: it writes `digitsOf row / 10 ^ placesOf row`. -/
inductive StandsFor (row : List Char) : Number → Prop
  | integer (hpoint : '.' ∉ row) (hfits : (digitsOf row : Int) ≤ maxInt64) : StandsFor row (.integer (digitsOf row))
  | nearest {m : Magnitude} (hpoints : row.count '.' ≤ 1) (hfloat : '.' ∈ row ∨ maxInt64 < digitsOf row)
      (h : Magnitude.Nearest (digitsOf row) (10 ^ placesOf row) m) : StandsFor row (.float (.finite false m))
  | infinite (hpoints : row.count '.' ≤ 1) (hfloat : '.' ∈ row ∨ maxInt64 < digitsOf row)
      (hlarge : Magnitude.tooLarge * 10 ^ placesOf row ≤ digitsOf row) : StandsFor row (.float (.infinite false))

/-- The floating-point number that a row of digits with one point at most writes. -/
def floatOf (row : List Char) : Binary64 :=
  (Magnitude.ofRatio (digitsOf row) (powTen (placesOf row))).elim (.infinite false) (.finite false)

theorem standsFor_float_iff {x : Binary64} : StandsFor row (.float x) ↔
    row.count '.' ≤ 1 ∧ ('.' ∈ row ∨ maxInt64 < digitsOf row) ∧ x = floatOf row := by
  have hpower := powTen_pos (placesOf row)
  rw [floatOf]
  constructor
  · rintro (_ | ⟨hpoints, hfloat, h⟩ | ⟨hpoints, hfloat, hlarge⟩)
    · rw [(Magnitude.ofRatio_eq_some_iff hpower).mpr h]
      exact ⟨hpoints, hfloat, rfl⟩
    · rw [(Magnitude.ofRatio_eq_none_iff hpower).mpr hlarge]
      exact ⟨hpoints, hfloat, rfl⟩
  · rintro ⟨hpoints, hfloat, rfl⟩
    cases hratio : Magnitude.ofRatio (digitsOf row) (powTen (placesOf row)) with
    | none => exact .infinite hpoints hfloat ((Magnitude.ofRatio_eq_none_iff hpower).mp hratio)
    | some m => exact .nearest hpoints hfloat ((Magnitude.ofRatio_eq_some_iff hpower).mp hratio)

theorem standsFor_integer_iff {n : Int} : StandsFor row (.integer n) ↔
    '.' ∉ row ∧ (digitsOf row : Int) ≤ maxInt64 ∧ n = digitsOf row := by
  constructor
  · rintro (⟨hpoint, hfits⟩)
    exact ⟨hpoint, hfits, rfl⟩
  · rintro ⟨hpoint, hfits, rfl⟩
    exact .integer hpoint hfits

/-! ### What the lexer takes rows for -/

/-- A row with one point at most is the floating-point number that it writes. -/
theorem float?_row (hc : c.isDigit = true) (hs : IsRow s) (hpoints : (c :: s).count '.' ≤ 1) :
    float? (c :: s) = some (floatOf (c :: s)) := by
  rcases hs.cases with hdigits | ⟨whole, fraction, hwhole, rfl, hfraction⟩
  · have hall : ∀ d ∈ c :: s, d.isDigit = true := List.forall_mem_cons.mpr ⟨hc, hdigits⟩
    have hfloat : float? (c :: s) = some (.ofNumeral ⟨none, c :: s, none, none⟩) := by
      simp [float?, Numeral.read?_digits hall, Numeral.hasDigit]
    rw [hfloat, Binary64.ofNumeral_of_exponent rfl, floatOf, digitsOf_digits hall,
      placesOf_eq_zero (point_notMem_of_digits hall), Numeral.digits,
      Option.getD_none, List.append_nil]
    rfl
  · have hall : ∀ d ∈ c :: whole, d.isDigit = true := List.forall_mem_cons.mpr ⟨hc, hwhole⟩
    have hpoint : '.' ∉ fraction := by
      intro hmem
      have hcount := List.count_pos_iff.mpr hmem
      simp only [List.count_cons, List.count_append, beq_self_eq_true, if_true] at hpoints
      omega
    have hdigits := hfraction.isDigit hpoint
    have hfloat : float? (c :: (whole ++ '.' :: fraction)) = some (.ofNumeral ⟨none, c :: whole, some fraction, none⟩) := by
      simp [float?, Numeral.read?_fraction hc hwhole hdigits, Numeral.hasDigit]
    rw [hfloat, Binary64.ofNumeral_of_exponent rfl, floatOf, ← List.cons_append, digitsOf_point hall hdigits,
      placesOf_point hall]
    rfl

/-- A row with more points is none. -/
theorem float?_points (hc : c.isDigit = true) (hs : IsRow s) (hpoints : 1 < (c :: s).count '.') :
    float? (c :: s) = none := by
  rw [List.count_cons_of_ne (by rintro rfl; cases hc)] at hpoints
  rcases hs.cases with hdigits | ⟨whole, rest, hwhole, rfl, hrest⟩
  · rw [count_point_of_digits hdigits] at hpoints
    omega
  rcases hrest.cases with hfraction | ⟨fraction, rest, hfraction, rfl, -⟩
  · rw [List.count_append, List.count_cons_self, count_point_of_digits hwhole, count_point_of_digits hfraction] at hpoints
    omega
  · have hread : Numeral.read? (c :: (whole ++ '.' :: (fraction ++ '.' :: rest))) = none :=
      Numeral.read?_points hc hwhole hfraction
    simp [float?, hread, notFinite?_of_mem_isDigit List.mem_cons_self hc]

theorem numberOf?_row (hc : c.isDigit = true) (hs : IsRow s) (hpoints : (c :: s).count '.' ≤ 1) :
    numberOf? (c :: s) = some (if '.' ∉ c :: s ∧ (digitsOf (c :: s) : Int) ≤ maxInt64 then .integer (digitsOf (c :: s))
      else .float (floatOf (c :: s))) := by
  have hfloat := float?_row hc hs hpoints
  by_cases hpoint : '.' ∈ c :: s
  · simp [numberOf?, hpoint, hfloat]
  · have hdigits : ∀ d ∈ c :: s, d.isDigit = true :=
      IsRow.isDigit (List.forall_mem_cons.mpr ⟨Or.inl hc, hs⟩) hpoint
    have hmin : minInt64 ≤ (digitsOf (c :: s) : Int) := Int.le_trans (by decide) (Int.natCast_nonneg _)
    have hint := int64?_digits (List.cons_ne_nil c s) hdigits
    rw [← digitsOf_digits hdigits] at hint
    by_cases hfits : (digitsOf (c :: s) : Int) ≤ maxInt64
    · simp [numberOf?, hpoint, hint, isInt64, hmin, hfits]
    · simp [numberOf?, hpoint, hint, isInt64, hfits, hfloat]

theorem numberOf?_points (hc : c.isDigit = true) (hs : IsRow s) (hpoints : 1 < (c :: s).count '.') :
    numberOf? (c :: s) = none := by
  have hpoint : '.' ∈ c :: s := List.count_pos_iff.mp (Nat.zero_lt_of_lt hpoints)
  rw [numberOf?, if_pos (List.contains_iff_mem.mpr hpoint), float?_points hc hs hpoints, Option.map_none]

/-- The lexer takes a row for the number that it stands for. -/
theorem numberOf?_eq_some_iff {n : Number} (hc : c.isDigit = true) (hs : IsRow s) :
    numberOf? (c :: s) = some n ↔ StandsFor (c :: s) n := by
  rcases Nat.lt_or_ge 1 ((c :: s).count '.') with hpoints | hpoints
  · have hpoint : '.' ∈ c :: s := List.count_pos_iff.mp (Nat.zero_lt_of_lt hpoints)
    rw [numberOf?_points hc hs hpoints]
    refine iff_of_false nofun ?_
    rintro (⟨hnone, -⟩ | ⟨hone, -, -⟩ | ⟨hone, -, -⟩)
    · exact hnone hpoint
    · exact Nat.not_lt.mpr hone hpoints
    · exact Nat.not_lt.mpr hone hpoints
  · rw [numberOf?_row hc hs hpoints, Option.some_inj]
    cases n with
    | integer n =>
      rw [standsFor_integer_iff]
      split
      · rename_i h
        rw [Number.integer.injEq, eq_comm, and_iff_right h.1, and_iff_right h.2]
      · rename_i h
        exact iff_of_false nofun fun h' => h ⟨h'.1, h'.2.1⟩
    | float x =>
      rw [standsFor_float_iff, and_iff_right hpoints]
      split
      · rename_i h
        exact iff_of_false nofun fun h' => h'.1.elim h.1 (Int.not_lt.mpr h.2)
      · rename_i h
        rw [Number.float.injEq, eq_comm, and_iff_right]
        exact or_iff_not_imp_left.mpr fun hpoint => Int.not_le.mp fun hfits => h ⟨hpoint, hfits⟩

/-- A row of digits and points that begins with a digit is a number unless it has more than one point. -/
theorem numberOf?_eq_none_iff (hc : c.isDigit = true) (hs : IsRow s) :
    numberOf? (c :: s) = none ↔ 1 < (c :: s).count '.' := by
  rcases Nat.lt_or_ge 1 ((c :: s).count '.') with hpoints | hpoints
  · exact iff_of_true (numberOf?_points hc hs hpoints) hpoints
  · rw [numberOf?_row hc hs hpoints]
    exact iff_of_false nofun (Nat.not_lt.mpr hpoints)

end
end ToolScript.Script
