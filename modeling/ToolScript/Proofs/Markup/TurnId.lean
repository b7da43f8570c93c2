import ToolScript.Markup.TurnId
import ToolScript.Proofs.Text.Classes

/-! # Identifiers and their digits

    The digits of an identifier write its number, so it is read from them and from no other text but in blanks and
    case, and two identifiers with the same digits in any case are the same. -/

namespace ToolScript.TurnId
open Text

/-! ### Numbers in digits -/

theorem hexNumber?_append (s : List Char) (c : Char) :
    hexNumber? (s ++ [c]) = (hexNumber? s).bind fun n => (hexValue? c).map (16 * n + ·) := by
  simp [hexNumber?, List.foldlM_append]

theorem hexNumber?_hexDigits (width n : Nat) : hexNumber? (hexDigits width n) = some (n % 16 ^ width) := by
  induction width generalizing n with
  | zero => simp [hexDigits, hexNumber?, Nat.mod_one]
  | succ width ih =>
    rw [hexDigits, hexNumber?_append, ih, hexValue?_hexDigit (Nat.mod_lt _ (by decide)), Nat.pow_succ, Nat.mul_comm _ 16,
      Nat.mod_mul, Nat.add_comm]
    rfl

/-- The case of the digits is of no account. -/
theorem hexNumber?_map {f : Char → Char} (hf : ∀ c, hexValue? (f c) = hexValue? c) (s : List Char) :
    hexNumber? (s.map f) = hexNumber? s := by
  simp only [hexNumber?, List.foldlM_map, hf]

/-- A text that writes a number has the digits of the number, in either case. -/
theorem hexDigits_of_hexNumber? {s : List Char} {n : Nat} (h : hexNumber? s = some n) :
    n < 16 ^ s.length ∧ hexDigits s.length n = s.map Char.toLower := by
  induction s using List.reverseRecOn generalizing n with
  | nil =>
    cases h
    exact ⟨Nat.one_pos, rfl⟩
  | append_singleton s c ih =>
    rw [hexNumber?_append] at h
    obtain ⟨high, hhigh, h⟩ := Option.bind_eq_some_iff.mp h
    obtain ⟨d, hd, rfl⟩ := Option.map_eq_some_iff.mp h
    obtain ⟨hlt, hdigits⟩ := ih hhigh
    obtain ⟨hd, hlast⟩ := hexDigit_of_hexValue? hd
    have hdiv : (16 * high + d) / 16 = high := by omega
    have hmod : (16 * high + d) % 16 = d := by omega
    rw [List.length_append, List.length_singleton]
    refine ⟨by rw [Nat.pow_succ]; omega, ?_⟩
    rw [hexDigits, hdiv, hmod, hdigits, hlast, List.map_append, List.map_singleton]

theorem isHexDigit_of_hexNumber? {s : List Char} {n : Nat} (h : hexNumber? s = some n) {c : Char} (hc : c ∈ s) :
    isHexDigit c = true := by
  have hmem : c.toLower ∈ hexDigits s.length n := (hexDigits_of_hexNumber? h).2 ▸ List.mem_map_of_mem hc
  rw [← isHexDigit_toLower, isHexDigit_of_mem_hexDigits hmem]

/-! ### The digits of an identifier -/

variable (t : TurnId)

theorem hexNumber?_digits : hexNumber? t.digits = some t.bits.toNat := by
  have hlt : t.bits.toNat < 16 ^ 4 := t.bits.toNat_lt
  rw [digits, hexNumber?_map hexValue?_toUpper, hexNumber?_hexDigits, Nat.mod_eq_of_lt hlt]

theorem length_digits : t.digits.length = 4 := by
  rw [digits, List.length_map, length_hexDigits]

variable {t}

theorem isHexDigit_of_mem_digits {c : Char} (h : c ∈ t.digits) : isHexDigit c = true := by
  obtain ⟨d, hd, rfl⟩ := List.mem_map.mp h
  rw [isHexDigit, hexValue?_toUpper]
  exact isHexDigit_of_mem_hexDigits hd

theorem isAlphanum_of_mem_digits {c : Char} (h : c ∈ t.digits) : c.isAlphanum = true :=
  isAlphanum_of_isHexDigit (isHexDigit_of_mem_digits h)

theorem not_mem_digits {c : Char} (hc : c.isAlphanum = false) : c ∉ t.digits := fun h => by
  rw [isAlphanum_of_mem_digits h] at hc
  cases hc

theorem trim_digits : trim t.digits = t.digits :=
  trim_eq_self fun _ hc => isBlank_of_isAlphanum (isAlphanum_of_mem_digits hc)

theorem map_toUpper_digits : t.digits.map Char.toUpper = t.digits := by
  simp [digits, Function.comp_def]

/-- A text is read as an identifier exactly if it has the digits of it, blanks around them and case aside. -/
theorem ofText_eq_ok_iff {s : String} : ofText s = .ok t ↔ (trim s.toList).map Char.toUpper = t.digits := by
  constructor
  · intro h
    simp only [ofText] at h
    split at h
    · cases h
    · rename_i hsize
      split at h
      · rename_i n hn
        cases h
        -- Digits are ASCII characters, so the four bytes are four of them.
        have hlen : (trim s.toList).length = 4 := by
          rw [← utf8Size_eq_length fun c hc =>
            toNat_lt_of_isAlphanum (isAlphanum_of_isHexDigit (isHexDigit_of_hexNumber? hn hc))]
          exact not_not.mp hsize
        obtain ⟨hlt, hdigits⟩ := hexDigits_of_hexNumber? hn
        rw [hlen] at hlt hdigits
        have hbits : n.toUInt16.toNat = n := UInt16.toNat_ofNat_of_lt hlt
        rw [digits, hbits, hdigits, List.map_map]
        exact List.map_congr_left fun c _ => (Char.toUpper_toLower_eq_toUpper c).symm
      · cases h
  · intro h
    have hsize : utf8Size (trim s.toList) = 4 := by
      rw [← utf8Size_map_toUpper, h, utf8Size_eq_length fun c hc => toNat_lt_of_isAlphanum (isAlphanum_of_mem_digits hc),
        length_digits]
    have hnumber : hexNumber? (trim s.toList) = some t.bits.toNat := by
      rw [← hexNumber?_map hexValue?_toUpper, h, hexNumber?_digits]
    have hbits : t.bits.toNat.toUInt16 = t.bits := UInt16.ofNat_toNat
    simp [ofText, hsize, hnumber, hbits]

/-- An identifier is read back from its text. -/
theorem ofText_text : ofText t.text = .ok t := by
  rw [ofText_eq_ok_iff, text, String.toList_ofList, trim_digits, map_toUpper_digits]

theorem map_toLower_digits_inj {other : TurnId} :
    t.digits.map Char.toLower = other.digits.map Char.toLower ↔ t = other := by
  constructor
  · intro h
    have hnumber : hexNumber? (t.digits.map Char.toLower) = hexNumber? (other.digits.map Char.toLower) := by rw [h]
    rw [hexNumber?_map hexValue?_toLower, hexNumber?_map hexValue?_toLower, hexNumber?_digits, hexNumber?_digits] at hnumber
    obtain ⟨bits⟩ := t
    obtain ⟨bits'⟩ := other
    have hbits : bits = bits' := UInt16.toNat_inj.mp (Option.some.inj hnumber)
    rw [hbits]
  · rintro rfl
    rfl

end ToolScript.TurnId
