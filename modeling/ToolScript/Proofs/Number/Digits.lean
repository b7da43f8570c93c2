import Mathlib.Data.List.TakeWhile
import ToolScript.Number.Numeral
import ToolScript.Proofs.Text.Classes

/-! # Rows of digits as numerals

    A row of decimal digits is a numeral without any other part, with a sign in front or without one, and with a point in
    it one with a fraction; with two points it is none. The digits of a natural number are read as that number, where it is
    within 64 bits. -/

namespace ToolScript

theorem digitsValue_decimalDigits (n : Nat) : digitsValue (decimalDigits n) = n :=
  Nat.ofDigitChars_ten_toDigits

theorem isDigit_of_mem_decimalDigits {n : Nat} {c : Char} (h : c ∈ decimalDigits n) : c.isDigit = true :=
  Nat.isDigit_of_mem_toDigits (by decide) (by decide) h

theorem decimalDigits_ne_nil (n : Nat) : decimalDigits n ≠ [] :=
  Nat.toDigits_ne_nil

theorem head?_decimalDigits {n : Nat} (h : 0 < n) : (decimalDigits n).head? ≠ some '0' := by
  induction n using Nat.strongRecOn with
  | ind n ih =>
    rw [decimalDigits]
    by_cases hn : n < 10
    · rw [Nat.toDigits_of_lt_base hn]
      exact (by decide : ∀ n < 10, 0 < n → [Nat.digitChar n].head? ≠ some '0') n hn h
    · rw [Nat.toDigits_of_base_le (by decide) (Nat.not_lt.mp hn), List.head?_append,
        Option.or_eq_left_of_isSome (List.isSome_head?.mpr Nat.toDigits_ne_nil)]
      exact ih (n / 10) (by omega) (by omega)

section
variable {s : List Char}

theorem Numeral.readSign_digits (h : ∀ c ∈ s, c.isDigit = true) : Numeral.readSign s = (none, s) := by
  unfold Numeral.readSign
  split
  · cases h '-' List.mem_cons_self
  · cases h '+' List.mem_cons_self
  · rfl

theorem Numeral.read?_digits (h : ∀ c ∈ s, c.isDigit = true) : Numeral.read? s = some ⟨none, s, none, none⟩ := by
  have hwhole : s.takeWhile Char.isDigit = s := List.takeWhile_eq_self_iff.mpr h
  have hrest : s.dropWhile Char.isDigit = [] := List.dropWhile_eq_nil_iff.mpr h
  simp [Numeral.read?, Numeral.readSign_digits h, hwhole, hrest, Numeral.readFraction, Numeral.readExponent?]

theorem Numeral.read?_sign_digits {sign : Char} (hsign : sign = '+' ∨ sign = '-') (h : ∀ c ∈ s, c.isDigit = true) :
    Numeral.read? (sign :: s) = some ⟨some sign, s, none, none⟩ := by
  have hwhole : s.takeWhile Char.isDigit = s := List.takeWhile_eq_self_iff.mpr h
  have hrest : s.dropWhile Char.isDigit = [] := List.dropWhile_eq_nil_iff.mpr h
  rcases hsign with rfl | rfl <;>
    simp [Numeral.read?, Numeral.readSign, hwhole, hrest, Numeral.readFraction, Numeral.readExponent?]

/-- A row of digits is the integer that it writes, if that is within 64 bits. -/
theorem int64?_digits (hne : s ≠ []) (h : ∀ c ∈ s, c.isDigit = true) :
    int64? s = if isInt64 (digitsValue s) then some (digitsValue s : Int) else none := by
  simp [int64?, Numeral.read?_digits h, Numeral.isInteger, Numeral.hasDigit, Numeral.toInt, Numeral.negative, hne]

end

/-! ### Points -/

theorem Numeral.readSign_of_ne {c : Char} (hc : c ≠ '-' ∧ c ≠ '+') (s : List Char) :
    Numeral.readSign (c :: s) = (none, c :: s) := by
  unfold Numeral.readSign
  split
  · rename_i heq
    exact absurd (List.cons.inj heq).1 hc.1
  · rename_i heq
    exact absurd (List.cons.inj heq).1 hc.2
  · rfl

theorem Numeral.readSign_of_isDigit {c : Char} (hc : c.isDigit = true) (s : List Char) :
    Numeral.readSign (c :: s) = (none, c :: s) := by
  refine Numeral.readSign_of_ne ⟨?_, ?_⟩ s
  · rintro rfl
    cases hc
  · rintro rfl
    cases hc

theorem Numeral.read?_fraction {c : Char} {whole fraction : List Char} (hc : c.isDigit = true)
    (hwhole : ∀ d ∈ whole, d.isDigit = true) (hfraction : ∀ d ∈ fraction, d.isDigit = true) :
    Numeral.read? (c :: (whole ++ '.' :: fraction)) = some ⟨none, c :: whole, some fraction, none⟩ := by
  have hpoint : ('.' : Char).isDigit = false := by decide
  have htake : (c :: (whole ++ '.' :: fraction)).takeWhile Char.isDigit = c :: whole := by
    rw [List.takeWhile_cons_of_pos hc, List.takeWhile_append_of_pos hwhole, List.takeWhile_cons_of_neg (by simp [hpoint]),
      List.append_nil]
  have hdrop : (c :: (whole ++ '.' :: fraction)).dropWhile Char.isDigit = '.' :: fraction := by
    rw [List.dropWhile_cons_of_pos hc, List.dropWhile_append_of_pos hwhole, List.dropWhile_cons_of_neg (by simp [hpoint])]
  have hread : Numeral.readFraction ('.' :: fraction) = (some fraction, []) := by
    rw [Numeral.readFraction, List.takeWhile_eq_self_iff.mpr hfraction, List.dropWhile_eq_nil_iff.mpr hfraction]
  simp [Numeral.read?, Numeral.readSign_of_isDigit hc, htake, hdrop, hread, Numeral.readExponent?]

/-- After a second point nothing is a numeral any more. -/
theorem Numeral.read?_points {c : Char} {whole fraction rest : List Char} (hc : c.isDigit = true)
    (hwhole : ∀ d ∈ whole, d.isDigit = true) (hfraction : ∀ d ∈ fraction, d.isDigit = true) :
    Numeral.read? (c :: (whole ++ '.' :: (fraction ++ '.' :: rest))) = none := by
  have hpoint : ('.' : Char).isDigit = false := by decide
  have hdrop : (c :: (whole ++ '.' :: (fraction ++ '.' :: rest))).dropWhile Char.isDigit =
      '.' :: (fraction ++ '.' :: rest) := by
    rw [List.dropWhile_cons_of_pos hc, List.dropWhile_append_of_pos hwhole, List.dropWhile_cons_of_neg (by simp [hpoint])]
  have hread : (Numeral.readFraction ('.' :: (fraction ++ '.' :: rest))).2 = '.' :: rest := by
    rw [Numeral.readFraction, List.dropWhile_append_of_pos hfraction, List.dropWhile_cons_of_neg (by simp [hpoint])]
  simp [Numeral.read?, Numeral.readSign_of_isDigit hc, hdrop, hread, Numeral.readExponent?]

/-! ### What is no number -/

/-- A numeral does not go on behind its digits with a character that begins neither a fraction nor an exponent. -/
theorem Numeral.read?_eq_none {s rest : List Char} {sign : Option Char} {c : Char} (digits : List Char)
    (hs : Numeral.readSign s = (sign, digits ++ c :: rest)) (hdigits : ∀ d ∈ digits, d.isDigit = true)
    (hc : c.isDigit = false ∧ c ≠ '.' ∧ c ≠ 'e' ∧ c ≠ 'E') : Numeral.read? s = none := by
  obtain ⟨hdigit, hpoint, hlower, hupper⟩ := hc
  have hdrop : (digits ++ c :: rest).dropWhile Char.isDigit = c :: rest := by
    rw [List.dropWhile_append_of_pos hdigits, List.dropWhile_cons_of_neg (by simp [hdigit])]
  have hfraction : Numeral.readFraction (c :: rest) = (none, c :: rest) := by
    unfold Numeral.readFraction
    split
    · rename_i heq
      exact absurd (List.cons.inj heq).1 hpoint
    · rfl
  simp [Numeral.read?, hs, hdrop, hfraction, Numeral.readExponent?, hlower, hupper]

theorem Numeral.mem_readSign {s : List Char} {c : Char} (h : c ∈ s) (hc : c.isDigit = true) : c ∈ (Numeral.readSign s).2 := by
  unfold Numeral.readSign
  split
  · refine List.mem_of_ne_of_mem ?_ h
    rintro rfl
    cases hc
  · refine List.mem_of_ne_of_mem ?_ h
    rintro rfl
    cases hc
  · exact h

/-- The words for numbers that are not finite have no digits. -/
theorem notFinite?_of_mem_isDigit {s : List Char} {c : Char} (h : c ∈ s) (hc : c.isDigit = true) : notFinite? s = none := by
  have hmem : c ∈ (Numeral.readSign s).2.map Char.toLower :=
    List.mem_map.mpr ⟨c, Numeral.mem_readSign h hc, Text.toLower_of_isDigit hc⟩
  have hne : ∀ word : List Char, word.any Char.isDigit = false →
      String.ofList ((Numeral.readSign s).2.map Char.toLower) ≠ String.ofList word := by
    intro word hword heq
    rw [String.ofList_injective heq] at hmem
    exact List.any_eq_false.mp hword c hmem hc
  have hinf : _ ≠ "inf" := hne ['i', 'n', 'f'] rfl
  have hinfinity : _ ≠ "infinity" := hne ['i', 'n', 'f', 'i', 'n', 'i', 't', 'y'] rfl
  have hnan : _ ≠ "nan" := hne ['n', 'a', 'n'] rfl
  simp [notFinite?, hinf, hinfinity, hnan]

/-! ### Signs -/

/-- A row of digits, with a sign in front or without one, and the integer that it writes. -/
inductive WritesInt : List Char → Int → Prop
  | unsigned {s : List Char} (ne : s ≠ []) (digits : ∀ c ∈ s, c.isDigit = true) : WritesInt s (Nat.ofDigitChars 10 s 0)
  | plus {s : List Char} (ne : s ≠ []) (digits : ∀ c ∈ s, c.isDigit = true) :
      WritesInt ('+' :: s) (Nat.ofDigitChars 10 s 0)
  | minus {s : List Char} (ne : s ≠ []) (digits : ∀ c ∈ s, c.isDigit = true) :
      WritesInt ('-' :: s) (-(Nat.ofDigitChars 10 s 0 : Int))

theorem WritesInt.read? {s : List Char} {n : Int} (h : WritesInt s n) :
    ∃ x, Numeral.read? s = some x ∧ x.isInteger = true ∧ x.hasDigit = true ∧ x.toInt = n := by
  cases h with
  | unsigned ne digits => exact ⟨_, Numeral.read?_digits digits, rfl, by simp [Numeral.hasDigit, ne], rfl⟩
  | plus ne digits => exact ⟨_, Numeral.read?_sign_digits (Or.inl rfl) digits, rfl, by simp [Numeral.hasDigit, ne], rfl⟩
  | minus ne digits => exact ⟨_, Numeral.read?_sign_digits (Or.inr rfl) digits, rfl, by simp [Numeral.hasDigit, ne], rfl⟩

theorem WritesInt.int64?_eq {s : List Char} {n : Int} (h : WritesInt s n) :
    int64? s = if isInt64 n then some n else none := by
  obtain ⟨x, hread, hinteger, hdigit, rfl⟩ := h.read?
  simp [int64?, hread, hinteger, hdigit]

theorem WritesInt.exists_digit {s : List Char} {n : Int} (h : WritesInt s n) : ∃ c ∈ s, c.isDigit = true := by
  cases h with
  | unsigned ne digits =>
    obtain ⟨c, hc⟩ := List.exists_mem_of_ne_nil _ ne
    exact ⟨c, hc, digits c hc⟩
  | plus ne digits | minus ne digits =>
    obtain ⟨c, hc⟩ := List.exists_mem_of_ne_nil _ ne
    exact ⟨c, List.mem_cons_of_mem _ hc, digits c hc⟩

end ToolScript
