import ToolScript.Number.Integer

/-! # Binary floating-point numbers of 64 bits

    A finite number is a sign and a magnitude: a significand below 2^53 times a power of two on the grid of
    2^-1074. Every magnitude has one canonical form. `ofRatio` rounds a quotient to the nearest magnitude, ties to
    the even significand, and has no answer where the quotient is too large. -/

namespace ToolScript

/-- The finite magnitude `significand * 2 ^ scale / 2 ^ 1074`. -/
structure Magnitude where
  significand : Nat
  scale : Nat
  significand_lt : significand < 1 <<< 53 := by decide
  scale_le : scale ≤ 2045 := by decide
  canonical : scale = 0 ∨ 1 <<< 52 ≤ significand := by decide
  deriving DecidableEq

inductive Binary64 where
  | finite (negative : Bool) (magnitude : Magnitude)
  | infinite (negative : Bool)
  | nan
  deriving DecidableEq

/-! ### Rounding -/

/-- A quotient rounded to the nearest natural number, and to the even one of two. -/
def roundDiv (num den : Nat) : Nat :=
  let q := num / den
  let r := num % den
  if 2 * r < den then q
  else if den < 2 * r then q + 1
  else if q % 2 = 0 then q else q + 1

theorem div_le_roundDiv (num den : Nat) : num / den ≤ roundDiv num den := by
  simp only [roundDiv]
  split
  · exact Nat.le_refl _
  · split
    · exact Nat.le_succ _
    · split
      · exact Nat.le_refl _
      · exact Nat.le_succ _

theorem roundDiv_le (num den : Nat) : roundDiv num den ≤ num / den + 1 := by
  simp only [roundDiv]
  split
  · exact Nat.le_succ _
  · split
    · exact Nat.le_refl _
    · split
      · exact Nat.le_succ _
      · exact Nat.le_refl _

namespace Magnitude

def zero : Magnitude where
  significand := 0
  scale := 0

/-- The scale at which a number of whole grid units has at most 53 binary digits. -/
def scaleOf (units : Nat) : Nat :=
  units.log2 - 52

theorem shiftRight_scaleOf_lt (units : Nat) : units >>> scaleOf units < 1 <<< 53 := by
  rw [Nat.shiftRight_eq_div_pow, Nat.one_shiftLeft, Nat.div_lt_iff_lt_mul (Nat.two_pow_pos _), ← Nat.pow_add]
  rcases Nat.eq_zero_or_pos units with rfl | pos
  · exact Nat.two_pow_pos _
  · refine Nat.lt_of_lt_of_le Nat.lt_log2_self (Nat.pow_le_pow_right (by decide) ?_)
    simp only [scaleOf]
    omega

theorem le_shiftRight_scaleOf {units : Nat} (h : scaleOf units ≠ 0) : 1 <<< 52 ≤ units >>> scaleOf units := by
  rw [Nat.shiftRight_eq_div_pow, Nat.one_shiftLeft, Nat.le_div_iff_mul_le (Nat.two_pow_pos _), ← Nat.pow_add]
  have nonzero : units ≠ 0 := by
    rintro rfl
    exact h (by decide)
  refine Nat.le_trans (Nat.pow_le_pow_right (by decide) ?_) (Nat.log2_self_le nonzero)
  simp only [scaleOf] at h ⊢
  omega

theorem div_shiftLeft (num den e : Nat) : num / (den <<< e) = (num / den) >>> e := by
  rw [Nat.shiftLeft_eq, Nat.shiftRight_eq_div_pow, Nat.div_div_eq_div_mul]

/-- A significand of at most 2^53 at a scale, carried to the next scale where it has 54 binary digits. -/
def carried (m e : Nat) (le : m ≤ 1 <<< 53) (canonical : e = 0 ∨ 1 <<< 52 ≤ m) : Option Magnitude :=
  if full : m = 1 <<< 53 then
    if small : e + 1 ≤ 2045 then some ⟨1 <<< 52, e + 1, by decide, small, Or.inr (Nat.le_refl _)⟩ else none
  else
    if small : e ≤ 2045 then some ⟨m, e, Nat.lt_of_le_of_ne le full, small, canonical⟩ else none

/-- The magnitude nearest to `num / den`, ties to the even significand; `none` where it would be 2^1024 or more. -/
def ofRatio (num den : Nat) : Option Magnitude :=
  let scaled := num <<< 1074
  let e := scaleOf (scaled / den)
  carried (roundDiv scaled (den <<< e)) e
    (by
      refine Nat.le_trans (roundDiv_le _ _) ?_
      rw [div_shiftLeft]
      exact shiftRight_scaleOf_lt (scaled / den))
    (by
      rcases Nat.eq_zero_or_pos e with zero | pos
      · exact Or.inl zero
      · refine Or.inr (Nat.le_trans ?_ (div_le_roundDiv _ _))
        rw [div_shiftLeft]
        exact le_shiftRight_scaleOf (Nat.ne_of_gt pos))

/-- How many units of 2^-1074 a magnitude has. -/
def units (m : Magnitude) : Nat :=
  m.significand <<< m.scale

/-- The whole part of a magnitude. -/
def floor (m : Magnitude) : Nat :=
  m.units >>> 1074

/-- The magnitude nearest to a product; `none` where that is too large. -/
def mul? (x y : Magnitude) : Option Magnitude :=
  ofRatio (x.units * y.units) (1 <<< 2148)

/-- The magnitude nearest to a quotient; `none` where that is too large. -/
def div? (x y : Magnitude) : Option Magnitude :=
  ofRatio x.units y.units

end Magnitude

namespace Binary64

def zero (negative : Bool) : Binary64 :=
  .finite negative .zero

def isFinite : Binary64 → Bool
  | .finite .. => true
  | _ => false

/-- The number without its fraction, or the nearest end of the signed 64-bit range where it lies outside. -/
def truncate : Binary64 → Int
  | .finite negative m =>
    let whole : Int := m.floor
    max minInt64 (min maxInt64 (if negative then -whole else whole))
  | .infinite negative => if negative then minInt64 else maxInt64
  | .nan => 0

end Binary64

end ToolScript
