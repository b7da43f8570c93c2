import Mathlib.Tactic.Ring
import ToolScript.Number.Numeral

/-! # Decimals as binary floating-point numbers

    A decimal has a nearest magnitude if it lies below the middle between the greatest magnitude and the next that would
    follow; the middle itself would go to the even one of the two, which is too large. Rounding never falls below a
    power of two that a whole number reaches, so an integer outside of 64 bits is cut to the nearest end of their
    range. -/

namespace ToolScript

/-! ### Rounding of quotients -/

/-- Which numbers below `top` units round up to `top`, which is even: those from the middle of the last unit on. -/
theorem roundDiv_eq_top_iff {n half top : Nat} (heven : top % 2 = 0) (hhalf : 0 < half) (h : n < top * (2 * half)) :
    roundDiv n (2 * half) = top ↔ (2 * top - 1) * half ≤ n := by
  have hn := Nat.div_add_mod n (2 * half)
  have hr := Nat.mod_lt n (show 0 < 2 * half by omega)
  have hq : n / (2 * half) < top := Nat.div_lt_of_lt_mul (by rwa [Nat.mul_comm] at h)
  simp only [roundDiv]
  generalize n / (2 * half) = q at *
  generalize n % (2 * half) = r at *
  -- The units that are missing after the last whole one, which is the last one of all if there are none.
  obtain ⟨k, rfl⟩ : ∃ k, top = q + 1 + k := ⟨top - (q + 1), by omega⟩
  have hunits : 2 * half * q = 2 * (q * half) := by ring
  have hmiddle : (2 * (q + 1 + k) - 1) * half = 2 * (q * half) + half + 2 * (k * half) := by
    rw [show 2 * (q + 1 + k) - 1 = 2 * q + 1 + 2 * k by omega]
    ring
  have hk : k = 0 ∧ k * half = 0 ∨ 1 ≤ k ∧ half ≤ k * half := by
    rcases Nat.eq_zero_or_pos k with rfl | hk
    · exact Or.inl ⟨rfl, Nat.zero_mul _⟩
    · exact Or.inr ⟨hk, Nat.le_mul_of_pos_left half hk⟩
  rw [hmiddle]
  split
  · omega
  · split
    · omega
    · split
      · omega
      · omega

/-- Parts of a number that are counted in larger units. -/
theorem roundDiv_mul_right (num den : Nat) {c : Nat} (hc : 0 < c) : roundDiv (num * c) (den * c) = roundDiv num den := by
  simp only [roundDiv, Nat.mul_div_mul_right _ _ hc, Nat.mul_mod_mul_right, ← Nat.mul_assoc, Nat.mul_lt_mul_right hc]

/-! ### Shifted numbers -/

section
variable {n k : Nat}

theorem shiftLeft_ne_zero (h : n ≠ 0) (k : Nat) : n <<< k ≠ 0 := by
  rw [Nat.shiftLeft_eq]
  exact Nat.mul_ne_zero h (Nat.two_pow_pos k).ne'

theorem shiftLeft_eq_mul (n k : Nat) : n <<< k = n * 1 <<< k := by
  rw [Nat.shiftLeft_eq, Nat.one_shiftLeft]

theorem shiftLeft_mul (m n k : Nat) : m <<< k * n = (m * n) <<< k := by
  rw [Nat.shiftLeft_eq, Nat.shiftLeft_eq, Nat.mul_right_comm]

theorem shiftLeft_le_shiftLeft_iff {a b : Nat} (k : Nat) : a <<< k ≤ b <<< k ↔ a ≤ b := by
  rw [Nat.shiftLeft_eq, Nat.shiftLeft_eq, Nat.mul_le_mul_right_iff (Nat.two_pow_pos k)]

theorem shiftLeft_le_shiftLeft {a b j : Nat} (hab : a ≤ b) (hk : k ≤ j) : a <<< k ≤ b <<< j := by
  rw [Nat.shiftLeft_eq, Nat.shiftLeft_eq]
  exact Nat.mul_le_mul hab (Nat.pow_le_pow_right (by decide) hk)

theorem le_shiftRight_iff {e : Nat} : n ≤ k >>> e ↔ n <<< e ≤ k := by
  rw [Nat.shiftRight_eq_div_pow, Nat.le_div_iff_mul_le (Nat.two_pow_pos e), Nat.shiftLeft_eq]

theorem le_log2_iff (h : n ≠ 0) : k ≤ n.log2 ↔ 1 <<< k ≤ n := by
  rw [Nat.le_log2 h, Nat.one_shiftLeft]

theorem log2_shiftLeft (h : n ≠ 0) (k : Nat) : (n <<< k).log2 = n.log2 + k := by
  rw [Nat.log2_eq_iff (shiftLeft_ne_zero h k), Nat.shiftLeft_eq, Nat.add_right_comm, Nat.pow_add, Nat.pow_add]
  exact ⟨Nat.mul_le_mul_right _ (Nat.log2_self_le h), Nat.mul_lt_mul_of_pos_right Nat.lt_log2_self (Nat.two_pow_pos k)⟩

/-- The power of two with as many digits stays within a number, whatever is cut off at a scale below that. -/
theorem one_shiftLeft_log2_le (h : n ≠ 0) (he : k ≤ n.log2) : 1 <<< n.log2 ≤ (n / 1 <<< k) <<< k := by
  obtain ⟨j, hj⟩ : ∃ j, n.log2 = j + k := ⟨n.log2 - k, (Nat.sub_add_cancel he).symm⟩
  have hpos : 0 < 1 <<< k := Nat.pos_of_ne_zero (shiftLeft_ne_zero (by decide) k)
  rw [hj, Nat.shiftLeft_add]
  refine (shiftLeft_le_shiftLeft_iff k).mpr ((Nat.le_div_iff_mul_le hpos).mpr ?_)
  rw [Nat.one_shiftLeft k, ← Nat.shiftLeft_eq, ← Nat.shiftLeft_add, ← hj]
  exact (le_log2_iff h).mp (Nat.le_refl _)

end

theorem powTen_pos (k : Nat) : 0 < powTen k :=
  Nat.pow_pos (by decide)

namespace Magnitude

/-! ### Too large numbers -/

/-- The least whole number that is too large: the middle between the greatest magnitude and 2^1024. -/
def tooLarge : Nat :=
  1 <<< 1024 - 1 <<< 970

theorem carried_eq_none_iff {m e : Nat} {le : m ≤ 1 <<< 53} {canonical : e = 0 ∨ 1 <<< 52 ≤ m} :
    carried m e le canonical = none ↔ 2045 < e ∨ e = 2045 ∧ m = 1 <<< 53 := by
  rw [carried]
  split
  · split <;> simp <;> omega
  · split <;> simp <;> omega

/-- The scale of a quotient tells the powers of two that it reaches. -/
theorem le_scaleOf_iff (num : Nat) {den : Nat} (hden : 0 < den) (k : Nat) :
    k + 1022 ≤ scaleOf (num <<< 1074 / den) ↔ 1 <<< k * den ≤ num := by
  have hscale (units : Nat) : k + 1022 ≤ scaleOf units ↔ 1 <<< (k + 1074) ≤ units := by
    have hlog : k + 1022 ≤ scaleOf units ↔ k + 1074 ≤ units.log2 := by
      rw [scaleOf]
      omega
    rw [hlog]
    rcases Nat.eq_zero_or_pos units with rfl | hpos
    · exact iff_of_false (by simp) fun h => shiftLeft_ne_zero (by decide) _ (Nat.le_zero.mp h)
    · exact le_log2_iff hpos.ne'
  rw [hscale, Nat.le_div_iff_mul_le hden, Nat.shiftLeft_add, shiftLeft_mul, shiftLeft_le_shiftLeft_iff]

/-- A quotient with 1024 binary digits has the greatest scale, and is too large if it rounds up to one digit more. -/
theorem roundDiv_shiftLeft_eq_iff {num den : Nat} (hden : 0 < den) (h : num < 1 <<< 1024 * den) :
    roundDiv (num <<< 1074) (den <<< 2045) = 1 <<< 53 ↔ tooLarge * den ≤ num := by
  have hunit : den <<< 2045 = 2 * (1 <<< 970 * den) * 1 <<< 1074 := by
    rw [shiftLeft_eq_mul, show 1 <<< 2045 = 2 * 1 <<< 970 * 1 <<< 1074 by decide +kernel]
    ring
  have hall : 1 <<< 1024 * den = 1 <<< 53 * (2 * (1 <<< 970 * den)) := by
    rw [show 1 <<< 1024 = 1 <<< 53 * (2 * 1 <<< 970) by decide +kernel]
    ring
  have hlarge : tooLarge * den = (2 * 1 <<< 53 - 1) * (1 <<< 970 * den) := by
    rw [show tooLarge = (2 * 1 <<< 53 - 1) * 1 <<< 970 by decide +kernel, Nat.mul_assoc]
  have hhalf : 0 < 1 <<< 970 * den := Nat.mul_pos (by decide +kernel) hden
  rw [hunit, shiftLeft_eq_mul num, roundDiv_mul_right _ _ (by decide +kernel),
    roundDiv_eq_top_iff (by decide) hhalf (hall ▸ h), hlarge]

/-- Of quotients those have a magnitude that are not too large. -/
theorem ofRatio_eq_none_iff {num den : Nat} (hden : 0 < den) : ofRatio num den = none ↔ tooLarge * den ≤ num := by
  have hbelow : 1 <<< 1023 * den ≤ tooLarge * den := Nat.mul_le_mul_right _ (by decide +kernel)
  have habove : tooLarge * den ≤ 1 <<< 1024 * den := Nat.mul_le_mul_right _ (Nat.sub_le _ _)
  have hscale := le_scaleOf_iff num hden 1023
  have hscale' := le_scaleOf_iff num hden 1024
  simp only [ofRatio]
  rw [carried_eq_none_iff]
  generalize he : scaleOf (num <<< 1074 / den) = e at hscale hscale' ⊢
  rcases Nat.lt_trichotomy e 2045 with hlt | rfl | hgt
  · exact iff_of_false (by omega) (by omega)
  -- Only at the greatest scale is it for the rounding to decide.
  · rw [← roundDiv_shiftLeft_eq_iff hden (by omega)]
    simp
  · exact iff_of_true (Or.inl hgt) (Nat.le_trans habove (hscale'.mp hgt))

/-- Of whole numbers those have a magnitude that are not too large. -/
theorem ofRatio_one_eq_none_iff (n : Nat) : ofRatio n 1 = none ↔ tooLarge ≤ n := by
  rw [ofRatio_eq_none_iff Nat.one_pos, Nat.mul_one]

/-- A quotient of less than half a unit is rounded to zero. -/
theorem ofRatio_eq_zero {num den : Nat} (h : 2 * num <<< 1074 < den) : ofRatio num den = some zero := by
  have hquotient : num <<< 1074 / den = 0 := Nat.div_eq_of_lt (by omega)
  have hscale : scaleOf (num <<< 1074 / den) = 0 := by rw [hquotient]; rfl
  have hround : roundDiv (num <<< 1074) den = 0 := by
    simp only [roundDiv, hquotient, Nat.mod_eq_of_lt (show num <<< 1074 < den by omega), if_pos h]
  simp [ofRatio, carried, hscale, hround, zero]

theorem ofDecimal_natCast (n : Nat) {k : Nat} (hk : k ≤ 310) : ofDecimal n k = ofRatio (n * powTen k) 1 := by
  unfold ofDecimal
  split
  · rename_i hzero
    rw [hzero, Nat.zero_mul, ofRatio_eq_zero (by decide)]
  · rw [if_pos (Int.natCast_nonneg k), if_neg (by omega), Int.toNat_natCast]

/-- A decimal with digits behind the point is rounded as the quotient that it is. -/
theorem ofDecimal_neg (n places : Nat) : ofDecimal n (-(places : Int)) = ofRatio n (powTen places) := by
  have hpower := powTen_pos places
  unfold ofDecimal
  split
  · rename_i hzero
    subst hzero
    exact (ofRatio_eq_zero (by simpa using hpower)).symm
  rename_i hn
  split
  · obtain rfl : places = 0 := by omega
    simp [powTen]
  simp only [Int.neg_neg, Int.toNat_natCast]
  split
  · rename_i hsmall
    have hbits : 2 * n <<< 1074 < powTen places := calc
      2 * n <<< 1074 = n <<< 1075 := (Nat.shiftLeft_succ n 1074).symm
      _ < 2 ^ ((n <<< 1075).log2 + 1) := Nat.lt_log2_self
      _ ≤ 2 ^ (3 * places) := Nat.pow_le_pow_right (by decide) (by rw [log2_shiftLeft hn]; omega)
      _ = 8 ^ places := Nat.pow_mul 2 3 places
      _ ≤ 10 ^ places := Nat.pow_le_pow_left (by decide) places
    exact (ofRatio_eq_zero hbits).symm
  · rfl

/-- Of decimals with digits behind the point those have a magnitude that are not too large. -/
theorem ofDecimal_neg_eq_none_iff (n places : Nat) :
    ofDecimal n (-(places : Int)) = none ↔ tooLarge * powTen places ≤ n := by
  rw [ofDecimal_neg, ofRatio_eq_none_iff (powTen_pos places)]

/-! ### Lower bounds -/

theorem units_of_carried {m e : Nat} {le : m ≤ 1 <<< 53} {canonical : e = 0 ∨ 1 <<< 52 ≤ m} {r : Magnitude}
    (h : carried m e le canonical = some r) : r.units = m <<< e := by
  rw [carried] at h
  split at h
  · rename_i full
    split at h
    · obtain rfl := Option.some.inj h
      show 1 <<< 52 <<< (e + 1) = m <<< e
      rw [full, Nat.add_comm, Nat.shiftLeft_add]
      rfl
    · cases h
  · split at h
    · obtain rfl := Option.some.inj h
      rfl
    · cases h

/-- What a whole number is rounded to reaches the powers of two that the number reaches. -/
theorem one_shiftLeft_le_floor {n k : Nat} {m : Magnitude} (hk : 1 <<< k ≤ n) (h : ofRatio n 1 = some m) : 1 <<< k ≤ m.floor := by
  have hn : n ≠ 0 := by
    rintro rfl
    exact shiftLeft_ne_zero (by decide) k (Nat.le_zero.mp hk)
  simp only [ofRatio, Nat.div_one] at h
  rw [floor, units_of_carried h, le_shiftRight_iff, ← Nat.shiftLeft_add]
  have hlog : k + 1074 ≤ (n <<< 1074).log2 := by
    rw [log2_shiftLeft hn]
    exact Nat.add_le_add_right ((le_log2_iff hn).mpr hk) _
  have hpower : 1 <<< (k + 1074) ≤ 1 <<< (n <<< 1074).log2 := by
    rw [Nat.one_shiftLeft, Nat.one_shiftLeft]
    exact Nat.pow_le_pow_right (by decide) hlog
  calc 1 <<< (k + 1074)
      ≤ 1 <<< (n <<< 1074).log2 := hpower
    _ ≤ (n <<< 1074 / 1 <<< scaleOf (n <<< 1074)) <<< scaleOf (n <<< 1074) :=
        one_shiftLeft_log2_le (shiftLeft_ne_zero hn _) (Nat.sub_le _ _)
    _ ≤ roundDiv (n <<< 1074) (1 <<< scaleOf (n <<< 1074)) <<< scaleOf (n <<< 1074) :=
        (shiftLeft_le_shiftLeft_iff _).mpr (div_le_roundDiv _ _)

end Magnitude

/-! ### Integers as they are written -/

theorem natAbs_lt_tooLarge {n : Int} (h : isInt64 n = true) : n.natAbs < Magnitude.tooLarge := by
  obtain ⟨hmin, hmax⟩ : minInt64 ≤ n ∧ n ≤ maxInt64 := by simpa [isInt64] using h
  have habs : n.natAbs ≤ 1 <<< 63 := by
    simp only [minInt64, maxInt64] at hmin hmax
    omega
  exact Nat.lt_of_le_of_lt habs (by decide +kernel)

theorem Numeral.natAbs_toInt (x : Numeral) : x.toInt.natAbs = digitsValue x.whole := by
  unfold Numeral.toInt
  split <;> simp

namespace Binary64
variable {x : Numeral}

/-- A numeral without an exponent is the quotient of its digits and a power of ten. -/
theorem ofNumeral_of_exponent (h : x.exponent = none) : ofNumeral x =
    (Magnitude.ofRatio (digitsValue x.digits) (powTen (x.fraction.getD []).length)).elim (.infinite x.negative)
      (.finite x.negative) := by
  have hpower : x.power = -((x.fraction.getD []).length : Int) := by simp [Numeral.power, Numeral.written, h]
  rw [ofNumeral, hpower, Magnitude.ofDecimal_neg]
  cases Magnitude.ofRatio (digitsValue x.digits) (powTen (x.fraction.getD []).length) <;> rfl

theorem ofNumeral_of_isInteger (h : x.isInteger = true) :
    ofNumeral x = (Magnitude.ofRatio x.toInt.natAbs 1).elim (.infinite x.negative) (.finite x.negative) := by
  simp only [Numeral.isInteger, Bool.and_eq_true, Option.isNone_iff_eq_none] at h
  simp [ofNumeral_of_exponent h.2, Numeral.digits, h.1, powTen, Numeral.natAbs_toInt]

/-- A numeral without an exponent is infinite if it is too large. -/
theorem isFinite_ofNumeral_iff (h : x.exponent = none) : (ofNumeral x).isFinite = true ↔
    digitsValue x.digits < Magnitude.tooLarge * powTen (x.fraction.getD []).length := by
  rw [← Nat.not_le, ← Magnitude.ofRatio_eq_none_iff (powTen_pos _), ofNumeral_of_exponent h]
  cases Magnitude.ofRatio (digitsValue x.digits) (powTen (x.fraction.getD []).length) with
  | none => simp [isFinite]
  | some m => simp [isFinite]

theorem isFinite_ofNumeral (h : x.isInteger = true) : (ofNumeral x).isFinite = decide (x.toInt.natAbs < Magnitude.tooLarge) := by
  simp only [Numeral.isInteger, Bool.and_eq_true, Option.isNone_iff_eq_none] at h
  rw [Bool.eq_iff_iff, isFinite_ofNumeral_iff h.2, decide_eq_true_iff, Numeral.natAbs_toInt]
  simp [Numeral.digits, h.1, powTen]

/-- An integer outside of 64 bits stays outside when it is rounded, so it is cut to the nearest end of the range. -/
theorem truncate_ofNumeral (h : x.isInteger = true) (hout : isInt64 x.toInt = false) (hfinite : (ofNumeral x).isFinite = true) :
    (ofNumeral x).truncate = max minInt64 (min maxInt64 x.toInt) := by
  rw [ofNumeral_of_isInteger h] at hfinite ⊢
  cases hm : Magnitude.ofRatio x.toInt.natAbs 1 with
  | none => simp [hm, isFinite] at hfinite
  | some m =>
    have habs := Numeral.natAbs_toInt x
    have hrange : minInt64 ≤ x.toInt → ¬x.toInt ≤ maxInt64 := by simpa [isInt64] using hout
    simp only [minInt64, maxInt64] at hrange
    have hlarge : 1 <<< 63 ≤ x.toInt.natAbs := by omega
    have hfloor := Magnitude.one_shiftLeft_le_floor hlarge hm
    simp only [Option.elim_some, truncate, minInt64, maxInt64]
    cases hneg : x.negative with
    | true =>
      have hvalue : x.toInt = -(digitsValue x.whole : Int) := by simp [Numeral.toInt, hneg]
      simp only [if_true]
      omega
    | false =>
      have hvalue : x.toInt = digitsValue x.whole := by simp [Numeral.toInt, hneg]
      simp only [Bool.false_eq_true, if_false]
      omega

end Binary64
end ToolScript
