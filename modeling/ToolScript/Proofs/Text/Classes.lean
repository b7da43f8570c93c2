import Mathlib
import ToolScript.Text.Blank
import ToolScript.Text.Hex
import ToolScript.Text.Letter
import ToolScript.Text.Size

/-! # Classes of characters

    How letters and digits, hexadecimal digits and blanks lie to each other. Facts about ASCII characters and about
    blanks are checked one by one. -/

namespace ToolScript.Text

/-- What holds of the first 128 characters one by one holds of every ASCII character. -/
theorem forall_ascii {P : Char → Prop} (h : ∀ n < 128, P (Char.ofNat n)) {c : Char} (hc : c.toNat < 128) : P c := by
  have := h c.toNat hc
  rwa [Char.ofNat_toNat] at this

/-! ### Letters and digits -/

theorem isAlphanum_of_isHexDigit {c : Char} (h : isHexDigit c = true) : c.isAlphanum = true := by
  simp only [isHexDigit, hexValue?] at h
  simp only [Char.isAlphanum, Char.isAlpha, Char.isUpper, Char.isLower, Char.isDigit, Char.le_def, UInt32.le_iff_toNat_le,
    Bool.or_eq_true, Bool.and_eq_true, decide_eq_true_eq] at h ⊢
  split at h
  · rename_i hd
    exact Or.inr ⟨hd.1, hd.2⟩
  · split at h
    · rename_i hl
      exact Or.inl (Or.inr ⟨hl.1, Nat.le_trans hl.2 (by decide)⟩)
    · split at h
      · rename_i hu
        exact Or.inl (Or.inl ⟨hu.1, Nat.le_trans hu.2 (by decide)⟩)
      · cases h

theorem toNat_lt_of_isAlphanum {c : Char} (h : c.isAlphanum = true) : c.toNat < 128 := by
  simp only [Char.isAlphanum, Char.isAlpha, Char.isUpper, Char.isLower, Char.isDigit, UInt32.le_iff_toNat_le,
    Bool.or_eq_true, Bool.and_eq_true, decide_eq_true_eq] at h
  rcases h with ((⟨-, h⟩ | ⟨-, h⟩) | ⟨-, h⟩) <;> exact Nat.lt_of_le_of_lt h (by decide)

theorem hexValue?_toLower (c : Char) : hexValue? c.toLower = hexValue? c := by
  by_cases hc : c.isUpper = true
  · have hlt : c.toNat < 128 := toNat_lt_of_isAlphanum (by simp [Char.isAlphanum, Char.isAlpha, hc])
    exact forall_ascii (P := fun c => hexValue? c.toLower = hexValue? c) (by decide +kernel) hlt
  · rw [Char.toLower_eq_of_not_isUpper hc]

theorem hexValue?_toUpper (c : Char) : hexValue? c.toUpper = hexValue? c := by
  rw [← hexValue?_toLower, Char.toLower_toUpper_eq_toLower, hexValue?_toLower]

theorem isHexDigit_toLower (c : Char) : isHexDigit c.toLower = isHexDigit c := by
  rw [isHexDigit, isHexDigit, hexValue?_toLower]

theorem isAlphanum_toUpper {c : Char} (h : c.isAlphanum = true) : c.toUpper.isAlphanum = true := by
  by_cases hl : c.isLower = true
  · simp [Char.isAlphanum, Char.isAlpha, hl]
  · rwa [Char.toUpper_eq_of_not_isLower hl]

theorem utf8Size_toUpper (c : Char) : c.toUpper.utf8Size = c.utf8Size := by
  by_cases hl : c.isLower = true
  · have hlt : c.toNat < 128 := toNat_lt_of_isAlphanum (by simp [Char.isAlphanum, Char.isAlpha, hl])
    exact forall_ascii (P := fun c => c.toUpper.utf8Size = c.utf8Size) (by decide +kernel) hlt
  · rw [Char.toUpper_eq_of_not_isLower hl]

theorem utf8Size_map_toUpper (s : List Char) : utf8Size (s.map Char.toUpper) = utf8Size s := by
  induction s with
  | nil => rfl
  | cons c s ih => rw [List.map_cons, utf8Size_cons, utf8Size_cons, utf8Size_toUpper, ih]

theorem exists_of_mem_hexDigits {c : Char} {width n : Nat} (h : c ∈ hexDigits width n) : ∃ k < 16, c = Nat.digitChar k := by
  induction width generalizing n with
  | zero => cases h
  | succ width ih =>
    rcases List.mem_append.mp h with h | h
    · exact ih h
    · exact ⟨n % 16, Nat.mod_lt _ (by decide), List.mem_singleton.mp h⟩

theorem hexValue?_hexDigit {d : Nat} (h : d < 16) : hexValue? (hexDigit d) = some d :=
  (by decide : ∀ d < 16, hexValue? (hexDigit d) = some d) d h

theorem isHexDigit_of_mem_hexDigits {c : Char} {width n : Nat} (h : c ∈ hexDigits width n) : isHexDigit c = true := by
  obtain ⟨k, hk, rfl⟩ := exists_of_mem_hexDigits h
  rw [isHexDigit, show Nat.digitChar k = hexDigit k from rfl, hexValue?_hexDigit hk, Option.isSome_some]

theorem hexDigit_of_hexValue? {c : Char} {d : Nat} (h : hexValue? c = some d) : d < 16 ∧ hexDigit d = c.toLower := by
  have hdigit : isHexDigit c = true := by rw [isHexDigit, h, Option.isSome_some]
  have hlt := toNat_lt_of_isAlphanum (isAlphanum_of_isHexDigit hdigit)
  exact forall_ascii (P := fun c => ∀ d ∈ hexValue? c, d < 16 ∧ hexDigit d = c.toLower) (by decide +kernel) hlt d h

theorem length_hexDigits (width n : Nat) : (hexDigits width n).length = width := by
  induction width generalizing n with
  | zero => rfl
  | succ width ih => rw [hexDigits, List.length_append, ih, List.length_singleton]

theorem hexDigits_append (high low n : Nat) :
    hexDigits (high + low) n = hexDigits high (n / 16 ^ low) ++ hexDigits low n := by
  induction low generalizing n with
  | zero => simp [hexDigits]
  | succ low ih =>
    rw [← Nat.add_assoc, hexDigits, hexDigits, ih, List.append_assoc, Nat.div_div_eq_div_mul, Nat.pow_succ, Nat.mul_comm 16]

theorem hexDigits_mod (width n : Nat) : hexDigits width (n % 16 ^ width) = hexDigits width n := by
  induction width generalizing n with
  | zero => rfl
  | succ width ih =>
    have hhigh : n % 16 ^ (width + 1) / 16 = n / 16 % 16 ^ width := by
      rw [Nat.pow_succ, Nat.mod_mul_left_div_self]
    have hlow : n % 16 ^ (width + 1) % 16 = n % 16 := Nat.mod_mod_of_dvd n (Dvd.intro_left (16 ^ width) rfl)
    rw [hexDigits, hexDigits, hhigh, hlow, ih]

theorem hexDigits_zero (width : Nat) : hexDigits width 0 = List.replicate width '0' := by
  induction width with
  | zero => rfl
  | succ width ih => rw [hexDigits, Nat.zero_div, ih, List.replicate_succ']; rfl

/-- The digits of a number that is not too large are the shortest ones with zeros in front. -/
theorem hexDigits_eq_leftpad {width n : Nat} (hwidth : 0 < width) (h : n < 16 ^ width) :
    hexDigits width n = (Nat.toDigits 16 n).leftpad width '0' := by
  induction width generalizing n with
  | zero => cases hwidth
  | succ width ih =>
    have hlast (digits : List Char) (c : Char) :
        (digits ++ [c]).leftpad (width + 1) '0' = digits.leftpad width '0' ++ [c] := by simp [List.leftpad]
    rw [hexDigits, hexDigit, Nat.toDigits_eq_if (by decide)]
    split
    · rename_i hsmall
      rw [Nat.div_eq_of_lt hsmall, Nat.mod_eq_of_lt hsmall, hexDigits_zero, ← List.nil_append [_], hlast]
      simp [List.leftpad]
    · rename_i hlarge
      have hpos : 0 < width := by
        rcases Nat.eq_zero_or_pos width with rfl | hpos
        · exact absurd h hlarge
        · exact hpos
      rw [hlast, ih hpos (Nat.div_lt_of_lt_mul (by rwa [← Nat.pow_succ']))]

/-! ### Blanks -/

theorem isBlank_of_isAlphanum {c : Char} (h : c.isAlphanum = true) : isBlank c = false := by
  have hlt := toNat_lt_of_isAlphanum h
  exact forall_ascii (P := fun c => c.isAlphanum = true → isBlank c = false) (by decide +kernel) hlt h

/-- What holds of every code point in some ranges holds of the characters in them. -/
theorem forall_inRanges {P : Char → Bool} {ranges : List (Nat × Nat)}
    (h : (ranges.all fun r => (List.range' r.1 (r.2 + 1 - r.1)).all fun n => P (Char.ofNat n)) = true) {c : Char}
    (hc : inRanges ranges c = true) : P c = true := by
  simp only [inRanges, List.any_eq_true, Bool.and_eq_true, decide_eq_true_eq] at hc
  obtain ⟨r, hr, hfirst, hlast⟩ := hc
  have hmem : c.toNat ∈ List.range' r.1 (r.2 + 1 - r.1) := by
    rw [List.mem_range'_1]
    omega
  have := List.all_eq_true.mp (List.all_eq_true.mp h r hr) _ hmem
  rwa [Char.ofNat_toNat] at this

theorem isWordChar_of_isBlank {c : Char} (h : isBlank c = true) : isWordChar c = false := by
  have := forall_inRanges (P := fun c => !isWordChar c) (by decide +kernel) h
  simpa using this

/-! ### Characters of words -/

theorem ne_of_isWordChar {c d : Char} (hc : isWordChar c = true) (hd : isWordChar d = false) : c ≠ d := by
  rintro rfl
  rw [hc] at hd
  cases hd

theorem isWordChar_of_isDigit {c : Char} (h : c.isDigit = true) : isWordChar c = true := by
  have hlt : c.toNat < 128 := toNat_lt_of_isAlphanum (by simp [Char.isAlphanum, h])
  simp [isWordChar, isNumeral, hlt, h]

theorem toLower_of_isDigit {c : Char} (h : c.isDigit = true) : c.toLower = c := by
  have hlt : c.toNat < 128 := toNat_lt_of_isAlphanum (by simp [Char.isAlphanum, h])
  exact forall_ascii (P := fun c => c.isDigit = true → c.toLower = c) (by decide +kernel) hlt h

theorem isDigit_of_isWordStart {c : Char} (h : isWordStart c = true) : c.isDigit = false := by
  by_contra hd
  have hd : c.isDigit = true := Bool.eq_true_of_not_eq_false hd
  have hlt : c.toNat < 128 := toNat_lt_of_isAlphanum (by simp [Char.isAlphanum, hd])
  have := forall_ascii (P := fun c => isWordStart c = true → c.isDigit = false) (by decide +kernel) hlt h
  rw [hd] at this
  cases this

theorem trim_eq_self {s : List Char} (h : ∀ c ∈ s, isBlank c = false) : trim s = s := by
  have hkeep : ∀ s : List Char, (∀ c ∈ s, isBlank c = false) → s.dropWhile isBlank = s := fun s h =>
    List.dropWhile_eq_self_iff.mpr fun _ => by simp [h _ (List.getElem_mem _)]
  rw [trim, trimLeft, hkeep s h, trimRight, hkeep s.reverse, List.reverse_reverse]
  exact fun c hc => h c (List.mem_reverse.mp hc)

end ToolScript.Text
