import ToolScript.Json.Number
import ToolScript.Proofs.Number.Nearest

/-! # How numbers of JSON are read

    Whatever a numeral writes, its significand stays within 64 bits. Where its digits have 53 binary digits at most and count
    for a power of ten between -22 and 22, both are floating-point numbers themselves, so that one rounding is left: such a
    numeral is read as the nearest floating-point number. -/

namespace ToolScript

namespace Magnitude

/-! ### Powers of ten -/

/-- Powers of ten up to this one are magnitudes, being a power of five with 53 binary digits at most and zeros. -/
theorem exists_powTen {k : Nat} (hk : k ≤ 22) : ∃ m, ofRatio (powTen k) 1 = some m ∧ m.units = powTen k <<< 1074 := by
  have hfive : 5 ^ k < 1 <<< 53 := Nat.lt_of_le_of_lt (Nat.pow_le_pow_right (by decide) hk) (by decide)
  have hten : powTen k = 5 ^ k <<< k := by
    rw [powTen, Nat.shiftLeft_eq]
    exact Nat.mul_pow 5 2 k
  rw [hten]
  exact exists_ofRatio_one hfive (by omega)

variable {n k : Nat} {m : Magnitude}

theorem timesTen?_eq (hk : k ≤ 22) (hm : m.units = n <<< 1074) : m.timesTen? k = ofRatio (n * powTen k) 1 := by
  obtain ⟨t, ht, hunits⟩ := exists_powTen hk
  have hproduct : n <<< 1074 * powTen k <<< 1074 = n * powTen k * 1 <<< 2148 := by
    rw [shiftLeft_eq_mul n, shiftLeft_eq_mul (powTen k), show 1 <<< 2148 = 1 <<< 1074 * 1 <<< 1074 by decide +kernel]
    ring
  have hscale : ofRatio (n * powTen k * 1 <<< 2148) (1 * 1 <<< 2148) = ofRatio (n * powTen k) 1 :=
    ofRatio_mul_right _ Nat.one_pos (Nat.pos_of_ne_zero (shiftLeft_ne_zero (by decide) _))
  rw [timesTen?, if_pos (Nat.le_trans hk (by decide)), ht, Option.bind_some, mul?, hm, hunits, hproduct, ← hscale, Nat.one_mul]

theorem overTen?_eq (hk : k ≤ 22) (hm : m.units = n <<< 1074) : m.overTen? k = ofRatio n (powTen k) := by
  obtain ⟨t, ht, hunits⟩ := exists_powTen hk
  rw [overTen?, if_pos (Nat.le_trans hk (by decide)), ht, Option.bind_some, div?, hm, hunits, shiftLeft_eq_mul n,
    shiftLeft_eq_mul (powTen k)]
  exact ofRatio_mul_right n (powTen_pos k) (Nat.pos_of_ne_zero (shiftLeft_ne_zero (by decide) _))

/-- With few digits and a small power of ten a decimal is far from too large. -/
theorem ofDecimal_ne_none {power : Int} (hn : n < 1 <<< 53) (hpower : power.natAbs ≤ 22) : ofDecimal n power ≠ none := by
  obtain ⟨k, rfl | rfl⟩ := Int.eq_nat_or_neg power
  · have hsmall : n * powTen k < tooLarge := calc
      n * powTen k ≤ 1 <<< 53 * powTen 22 := Nat.mul_le_mul hn.le (Nat.pow_le_pow_right (by decide) (by omega))
      _ < tooLarge := by decide +kernel
    rw [ofDecimal_natCast n (by omega), Ne, ofRatio_one_eq_none_iff]
    exact Nat.not_le.mpr hsmall
  · rw [Ne, ofDecimal_neg_eq_none_iff]
    refine Nat.not_le.mpr (Nat.lt_of_lt_of_le hn ?_)
    calc 1 <<< 53
        ≤ tooLarge := by decide +kernel
      _ ≤ tooLarge * powTen k := Nat.le_mul_of_pos_right _ (powTen_pos k)

end Magnitude

namespace Json

/-! ### Digits -/

section
variable {n : Nat} {s : List Char}

theorem le_ofDigitChars (s : List Char) (n : Nat) : n ≤ Nat.ofDigitChars 10 s n := by
  induction s generalizing n with
  | nil => exact Nat.le_refl n
  | cons c s ih =>
    have := ih (10 * n + (c.toNat - '0'.toNat))
    show n ≤ Nat.ofDigitChars 10 s (10 * n + (c.toNat - '0'.toNat))
    omega

theorem takeDigits_le (hn : (n : Int) ≤ maxUInt64) (s : List Char) : ((takeDigits n s).1 : Int) ≤ maxUInt64 := by
  induction s generalizing n with
  | nil => exact hn
  | cons c s ih =>
    simp only [takeDigits]
    split
    · rename_i hnext
      exact ih hnext
    · exact hn

/-- Digits that fit are all taken. -/
theorem takeDigits_eq (h : (Nat.ofDigitChars 10 s n : Int) ≤ maxUInt64) : takeDigits n s = (Nat.ofDigitChars 10 s n, []) := by
  induction s generalizing n with
  | nil => rfl
  | cons c s ih =>
    have hnext := le_ofDigitChars s (10 * n + (c.toNat - '0'.toNat))
    have hrest : (Nat.ofDigitChars 10 s (10 * n + (c.toNat - '0'.toNat)) : Int) ≤ maxUInt64 := h
    rw [takeDigits, if_pos (by omega)]
    exact ih hrest

end

/-! ### Significands and powers -/

namespace Scaled

/-- Significands are unsigned integers of 64 bits. -/
theorem significand_le (n : Numeral) : ((ofNumeral n).significand : Int) ≤ maxUInt64 :=
  takeDigits_le (takeDigits_le (by decide) _) _

/-- A numeral whose digits fit is read without loss. -/
theorem ofNumeral_eq {n : Numeral} (h : (digitsValue n.digits : Int) ≤ maxUInt64) :
    ofNumeral n = ⟨digitsValue n.digits, n.power⟩ := by
  have hdigits : digitsValue n.digits = Nat.ofDigitChars 10 (n.fraction.getD []) (Nat.ofDigitChars 10 n.whole 0) :=
    List.foldl_append
  have hwhole := le_ofDigitChars (n.fraction.getD []) (Nat.ofDigitChars 10 n.whole 0)
  rw [hdigits] at h ⊢
  rw [ofNumeral, takeDigits_eq (by omega)]
  simp [takeDigits_eq h, Numeral.power]

/-- A significand and a power that are floating-point numbers themselves are rounded once. -/
theorem magnitude?_eq {x : Scaled} (hsignificand : x.significand < 1 <<< 53) (hpower : x.power.natAbs ≤ 22) :
    x.magnitude? = Magnitude.ofDecimal x.significand x.power := by
  obtain ⟨m, hm, hunits⟩ := Magnitude.exists_ofRatio_one hsignificand (Nat.zero_le 971)
  rw [Nat.shiftLeft_zero] at hm hunits
  rw [magnitude?, hm, Option.bind_some]
  split
  · rename_i hnonneg
    rw [Magnitude.timesTen?_eq hpower hunits, ← Magnitude.ofDecimal_natCast _ (by omega), Int.natAbs_of_nonneg hnonneg]
  · rename_i hneg
    rw [Magnitude.overTen?_eq hpower hunits, ← Magnitude.ofDecimal_neg, Int.ofNat_natAbs_of_nonpos (by omega), Int.neg_neg]

end Scaled

/-- A numeral with few digits and a small power of ten is read as the nearest floating-point number. -/
theorem numberNode_eq_float {n : Numeral} (hinteger : n.isInteger = false) (hdigits : digitsValue n.digits < 1 <<< 53)
    (hpower : n.power.natAbs ≤ 22) : numberNode n = .float (.ofNumeral n) := by
  have hfits : (digitsValue n.digits : Int) ≤ maxUInt64 := Int.le_trans (Int.ofNat_le.mpr hdigits.le) (by decide)
  have hfinite := Magnitude.ofDecimal_ne_none hdigits hpower
  rw [numberNode, if_neg (by simp [hinteger]), Scaled.ofNumeral_eq hfits, Scaled.magnitude?_eq hdigits hpower,
    Binary64.ofNumeral]
  cases hm : Magnitude.ofDecimal (digitsValue n.digits) n.power with
  | none => exact absurd hm hfinite
  | some m => rfl

/-- Beyond that the number read can be too large where the nearest one is not. -/
example : (Scaled.mk 17976931348623158 292).magnitude? = none ∧ Magnitude.ofDecimal 17976931348623158 292 ≠ none := by
  decide +kernel

end Json
end ToolScript
