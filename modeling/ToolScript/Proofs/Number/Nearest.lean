import Mathlib.Data.Nat.Dist
import ToolScript.Proofs.Number.Rounding

/-! # Nearest magnitudes

    A quotient that is not too large is rounded to the magnitude nearest to it, and of two that are as near to the one
    with an even significand. At most one magnitude is nearest in this sense, so that rounding is determined by it. -/

namespace ToolScript

/-! ### Nearest multiples -/

theorem roundDiv_cases (n d : Nat) :
    roundDiv n d = n / d ∧ (2 * (n % d) < d ∨ 2 * (n % d) = d ∧ n / d % 2 = 0) ∨
      roundDiv n d = n / d + 1 ∧ (d < 2 * (n % d) ∨ 2 * (n % d) = d ∧ n / d % 2 = 1) := by
  simp only [roundDiv]
  split
  · omega
  · split
    · omega
    · split
      · omega
      · omega

/-- Another multiple of the divisor is farther off, or as far and an odd one where an even one was chosen. -/
theorem roundDiv_nearest (n : Nat) {d : Nat} (hd : 0 < d) (k : Nat) :
    k = roundDiv n d ∨ n.dist (d * roundDiv n d) < n.dist (d * k) ∨
      n.dist (d * roundDiv n d) = n.dist (d * k) ∧ roundDiv n d % 2 = 0 ∧ k % 2 = 1 := by
  have hn := Nat.div_add_mod n d
  have hr := Nat.mod_lt n hd
  have hnext : d * (n / d + 1) = d * (n / d) + d := Nat.mul_succ d _
  -- Beyond the two multiples next to `n` every one is farther off by a whole divisor.
  have hk : k = n / d ∨ k = n / d + 1 ∨ d * k + d ≤ d * (n / d) ∨ d * (n / d) + 2 * d ≤ d * k := by
    rcases Nat.lt_or_ge k (n / d) with hlt | hge
    · exact Or.inr (Or.inr (Or.inl (Nat.mul_succ d k ▸ Nat.mul_le_mul_left d hlt)))
    · rcases Nat.lt_or_ge (n / d + 1) k with hlt | hle
      · have := Nat.mul_le_mul_left d hlt
        rw [Nat.mul_succ, Nat.mul_succ] at this
        omega
      · omega
  unfold Nat.dist
  rcases roundDiv_cases n d with ⟨hround, hrest⟩ | ⟨hround, hrest⟩
  · rw [hround]
    rcases hk with rfl | rfl | hk | hk
    · exact Or.inl rfl
    · rw [hnext]
      omega
    · omega
    · omega
  · rw [hround, hnext]
    rcases hk with rfl | rfl | hk | hk
    · omega
    · exact Or.inl rfl
    · omega
    · omega

theorem dist_roundDiv_le (n : Nat) {d : Nat} (hd : 0 < d) (k : Nat) : n.dist (d * roundDiv n d) ≤ n.dist (d * k) := by
  rcases roundDiv_nearest n hd k with rfl | hlt | ⟨hequal, -⟩
  · exact Nat.le_refl _
  · exact Nat.le_of_lt hlt
  · exact Nat.le_of_eq hequal

namespace Magnitude

/-! ### Units -/

section
variable {m m' : Magnitude}

theorem units_lt (m : Magnitude) : m.units < 1 <<< 53 <<< m.scale := by
  rw [units, Nat.shiftLeft_eq, Nat.shiftLeft_eq]
  exact Nat.mul_lt_mul_of_pos_right m.significand_lt (Nat.two_pow_pos _)

theorem le_units (h : m.scale ≠ 0) : 1 <<< 52 <<< m.scale ≤ m.units :=
  (shiftLeft_le_shiftLeft_iff _).mpr (m.canonical.resolve_left h)

/-- At a lower scale a magnitude is below the least one with 53 binary digits at the higher scale. -/
theorem units_lt_of_scale_lt {e : Nat} (h : m.scale < e) : m.units < 1 <<< 52 <<< e := by
  refine Nat.lt_of_lt_of_le m.units_lt ?_
  rw [show 53 = 52 + 1 from rfl, Nat.shiftLeft_add, ← Nat.shiftLeft_add _ 1]
  exact shiftLeft_le_shiftLeft (Nat.le_refl _) (by omega)

/-- A magnitude is determined by its units. -/
theorem eq_of_units_eq (h : m.units = m'.units) : m = m' := by
  have hscale : ∀ {a b : Magnitude}, a.units = b.units → ¬a.scale < b.scale := fun {a b} h hlt =>
    Nat.not_lt.mpr (le_units (m := b) (by omega)) (h ▸ units_lt_of_scale_lt hlt)
  have hscale : m.scale = m'.scale := Nat.le_antisymm (Nat.not_lt.mp (hscale h.symm)) (Nat.not_lt.mp (hscale h))
  have hsignificand : m.significand = m'.significand := by
    rw [units, units, hscale, Nat.shiftLeft_eq, Nat.shiftLeft_eq] at h
    exact Nat.eq_of_mul_eq_mul_right (Nat.two_pow_pos _) h
  cases m
  cases m'
  cases hscale
  cases hsignificand
  rfl

/-- Against the grid of a scale a magnitude is a number of its units, or below those with 53 binary digits. -/
theorem units_cases (m : Magnitude) (e : Nat) :
    (∃ k, m.units = k <<< e ∧ (k % 2 = 1 → m.significand % 2 = 1)) ∨ e ≠ 0 ∧ m.units < 1 <<< 52 <<< e := by
  rcases Nat.lt_or_ge m.scale e with hlt | hge
  · exact Or.inr ⟨by omega, units_lt_of_scale_lt hlt⟩
  · obtain ⟨j, hj⟩ : ∃ j, m.scale = j + e := ⟨m.scale - e, by omega⟩
    refine Or.inl ⟨m.significand <<< j, by rw [units, hj, Nat.shiftLeft_add], fun hodd => ?_⟩
    cases j with
    | zero => exact hodd
    | succ j =>
      rw [Nat.shiftLeft_succ, Nat.mul_mod_right] at hodd
      cases hodd

end

/-! ### Nearest magnitudes -/

/-- How far a magnitude is from `num / den`, counted in parts of a unit of which there are `den`. -/
def distance (num den : Nat) (m : Magnitude) : Nat :=
  (num <<< 1074).dist (den * m.units)

/-- A quotient is not too large, no magnitude is nearer to it than this one, and if another is as near then this one has an
    even significand. -/
structure Nearest (num den : Nat) (m : Magnitude) : Prop where
  small : num < tooLarge * den
  least : ∀ other, distance num den m ≤ distance num den other
  even : ∀ other, other ≠ m → distance num den other = distance num den m → m.significand % 2 = 0

section
variable {num den : Nat} {m : Magnitude}

theorem significand_even_of_carried {r e : Nat} {le : r ≤ 1 <<< 53} {canonical : e = 0 ∨ 1 <<< 52 ≤ r}
    (h : carried r e le canonical = some m) (heven : r % 2 = 0) : m.significand % 2 = 0 := by
  rw [carried] at h
  split at h
  · split at h
    · obtain rfl := Option.some.inj h
      exact (by decide : 1 <<< 52 % 2 = 0)
    · cases h
  · split at h
    · obtain rfl := Option.some.inj h
      exact heven
    · cases h

theorem mul_shiftLeft (n k e : Nat) : n * k <<< e = n <<< e * k := by
  rw [Nat.mul_comm, shiftLeft_mul, shiftLeft_mul, Nat.mul_comm]

/-- A quotient is rounded to units of a scale at which it has 53 binary digits, or of the lowest one. -/
theorem exists_scale_of_ofRatio (hden : 0 < den) (h : ofRatio num den = some m) : ∃ e,
    m.units = roundDiv (num <<< 1074) (den <<< e) <<< e ∧
      (roundDiv (num <<< 1074) (den <<< e) % 2 = 0 → m.significand % 2 = 0) ∧
      (e ≠ 0 → den <<< e * 1 <<< 52 ≤ num <<< 1074) := by
  simp only [ofRatio] at h
  refine ⟨_, units_of_carried h, significand_even_of_carried h, fun he => ?_⟩
  rw [← mul_shiftLeft, Nat.mul_comm, ← Nat.le_div_iff_mul_le hden]
  exact le_shiftRight_iff.mp (le_shiftRight_scaleOf he)

/-- Any other magnitude is farther off than the one that a quotient is rounded to, or as far and odd. -/
theorem distance_of_ofRatio (hden : 0 < den) (h : ofRatio num den = some m) (other : Magnitude) :
    other = m ∨ distance num den m < distance num den other ∨
      distance num den m = distance num den other ∧ m.significand % 2 = 0 ∧ other.significand % 2 = 1 := by
  obtain ⟨e, hunits, heven, hscale⟩ := exists_scale_of_ofRatio hden h
  have hpos : 0 < den <<< e := Nat.pos_of_ne_zero (shiftLeft_ne_zero hden.ne' e)
  simp only [distance, hunits, mul_shiftLeft]
  rcases other.units_cases e with ⟨k, hk, hodd⟩ | ⟨he, hlt⟩
  · rw [hk, mul_shiftLeft]
    rcases roundDiv_nearest (num <<< 1074) hpos k with rfl | hlt | ⟨hequal, hround, hk⟩
    · exact Or.inl (eq_of_units_eq (hk.trans hunits.symm))
    · exact Or.inr (Or.inl hlt)
    · exact Or.inr (Or.inr ⟨hequal, heven hround, hodd hk⟩)
  · -- The least magnitude with 53 binary digits at this scale is between the other one and the quotient.
    have hleast := hscale he
    have hbelow : den * other.units < den <<< e * 1 <<< 52 := mul_shiftLeft den (1 <<< 52) e ▸ Nat.mul_lt_mul_of_pos_left hlt hden
    refine Or.inr (Or.inl (Nat.lt_of_le_of_lt (dist_roundDiv_le _ hpos (1 <<< 52)) ?_))
    rw [Nat.dist_eq_sub_of_le_right hleast, Nat.dist_eq_sub_of_le_right (Nat.le_of_lt (Nat.lt_of_lt_of_le hbelow hleast))]
    exact Nat.sub_lt_sub_left (Nat.lt_of_lt_of_le hbelow hleast) hbelow

/-- A quotient is rounded to its nearest magnitude. -/
theorem ofRatio_eq_some_iff (hden : 0 < den) : ofRatio num den = some m ↔ Nearest num den m := by
  constructor
  · intro h
    refine ⟨?_, fun other => ?_, fun other hne hequal => ?_⟩
    · rw [← Nat.not_le, ← ofRatio_eq_none_iff hden, h]
      exact Option.some_ne_none m
    · rcases distance_of_ofRatio hden h other with rfl | hlt | ⟨heq, -⟩
      · exact Nat.le_refl _
      · exact Nat.le_of_lt hlt
      · exact Nat.le_of_eq heq
    · rcases distance_of_ofRatio hden h other with rfl | hlt | ⟨-, heven, -⟩
      · exact absurd rfl hne
      · exact absurd hequal.symm (Nat.ne_of_lt hlt)
      · exact heven
  · intro h
    obtain ⟨r, hr⟩ := Option.ne_none_iff_exists'.mp ((ofRatio_eq_none_iff hden).not.mpr (Nat.not_le.mpr h.small))
    rw [hr]
    rcases distance_of_ofRatio hden hr m with rfl | hlt | ⟨hequal, heven, hodd⟩
    · rfl
    · exact absurd hlt (Nat.not_lt.mpr (h.least r))
    · have hne : r ≠ m := by
        rintro rfl
        omega
      have := h.even r hne hequal
      omega

theorem distance_mul_right (num den c : Nat) (m : Magnitude) : distance (num * c) (den * c) m = distance num den m * c := by
  rw [distance, distance, ← shiftLeft_mul, Nat.mul_right_comm, Nat.dist_mul_right]

theorem nearest_mul_right_iff {c : Nat} (hc : 0 < c) : Nearest (num * c) (den * c) m ↔ Nearest num den m := by
  have hsmall : num * c < tooLarge * (den * c) ↔ num < tooLarge * den := by
    rw [← Nat.mul_assoc, Nat.mul_lt_mul_right hc]
  constructor
  · intro h
    refine ⟨hsmall.mp h.small, fun other => ?_, fun other hne hequal => h.even other hne ?_⟩
    · have := h.least other
      rw [distance_mul_right, distance_mul_right] at this
      exact Nat.le_of_mul_le_mul_right this hc
    · rw [distance_mul_right, distance_mul_right, hequal]
  · intro h
    refine ⟨hsmall.mpr h.small, fun other => ?_, fun other hne hequal => h.even other hne ?_⟩
    · rw [distance_mul_right, distance_mul_right]
      exact Nat.mul_le_mul_right c (h.least other)
    · rw [distance_mul_right, distance_mul_right] at hequal
      exact Nat.eq_of_mul_eq_mul_right hc hequal

/-- Numerator and denominator may be counted in larger units. -/
theorem ofRatio_mul_right (num : Nat) {den c : Nat} (hden : 0 < den) (hc : 0 < c) :
    ofRatio (num * c) (den * c) = ofRatio num den := by
  refine Option.ext fun m => ?_
  rw [ofRatio_eq_some_iff (Nat.mul_pos hden hc), ofRatio_eq_some_iff hden, nearest_mul_right_iff hc]

/-! ### Exact magnitudes -/

theorem units_lt_tooLarge (m : Magnitude) : m.units < tooLarge <<< 1074 := by
  have hgreatest : (1 <<< 53 - 1) <<< 2045 < tooLarge <<< 1074 := by decide +kernel
  refine Nat.lt_of_le_of_lt ?_ hgreatest
  exact shiftLeft_le_shiftLeft (Nat.le_pred_of_lt m.significand_lt) m.scale_le

/-- A quotient that a magnitude is equal to is rounded to it. -/
theorem ofRatio_of_exact (hden : 0 < den) (h : den * m.units = num <<< 1074) : ofRatio num den = some m := by
  have hzero : distance num den m = 0 := by rw [distance, h, Nat.dist_self]
  refine (ofRatio_eq_some_iff hden).mpr ⟨?_, fun other => ?_, fun other hne hother => ?_⟩
  · have hlt : den * m.units < den * tooLarge <<< 1074 := Nat.mul_lt_mul_of_pos_left m.units_lt_tooLarge hden
    rw [h, Nat.mul_comm, shiftLeft_mul] at hlt
    exact Nat.not_le.mp fun hle => Nat.not_le.mpr hlt ((shiftLeft_le_shiftLeft_iff 1074).mpr hle)
  · rw [hzero]
    exact Nat.zero_le _
  · rw [hzero, distance] at hother
    have hunits := Nat.eq_of_dist_eq_zero hother
    rw [← h] at hunits
    exact absurd (eq_of_units_eq (Nat.eq_of_mul_eq_mul_left hden hunits).symm) hne

/-- A number with 53 binary digits at most and zeros behind them is a magnitude. -/
theorem exists_units_eq {n k : Nat} (hn : n < 1 <<< 53) (hk : k ≤ 971) : ∃ m : Magnitude, m.units = n <<< (k + 1074) := by
  rcases Nat.eq_zero_or_pos n with rfl | hpos
  · exact ⟨.zero, by rw [units, zero, Nat.zero_shiftLeft, Nat.zero_shiftLeft]⟩
  obtain ⟨d, hd⟩ : ∃ d, n.log2 + d = 52 := by
    have hlog : n.log2 < 53 := (Nat.log2_lt hpos.ne').mpr (by rwa [Nat.one_shiftLeft] at hn)
    exact ⟨52 - n.log2, by omega⟩
  have hlt : n <<< d < 1 <<< 53 := by
    rw [show 53 = n.log2 + 1 + d by omega, Nat.shiftLeft_add, Nat.shiftLeft_eq, Nat.shiftLeft_eq _ d, Nat.one_shiftLeft]
    exact Nat.mul_lt_mul_of_pos_right Nat.lt_log2_self (Nat.two_pow_pos d)
  have hle : 1 <<< 52 ≤ n <<< d := by
    rw [← hd, Nat.shiftLeft_add]
    exact (shiftLeft_le_shiftLeft_iff d).mpr ((le_log2_iff hpos.ne').mp (Nat.le_refl _))
  refine ⟨⟨n <<< d, k + 1074 - d, hlt, by omega, Or.inr hle⟩, ?_⟩
  rw [units, ← Nat.shiftLeft_add, show d + (k + 1074 - d) = k + 1074 by omega]

theorem exists_ofRatio_one {n k : Nat} (hn : n < 1 <<< 53) (hk : k ≤ 971) :
    ∃ m, ofRatio (n <<< k) 1 = some m ∧ m.units = n <<< k <<< 1074 := by
  obtain ⟨m, hm⟩ := exists_units_eq hn hk
  rw [Nat.shiftLeft_add] at hm
  exact ⟨m, ofRatio_of_exact Nat.one_pos (by rw [Nat.one_mul, hm]), hm⟩

end
end Magnitude
end ToolScript
