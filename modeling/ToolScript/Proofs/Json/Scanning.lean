import ToolScript.Json.Printer
import ToolScript.Json.Token
import ToolScript.Proofs.Number.Digits
import ToolScript.Proofs.Text.Classes

/-! # Printed JSON as tokens

    Strings, brackets and blanks show their own end, so the scanner is between two tokens behind them. A number or a
    word ends only with the first character that cannot go on with it; behind one the scanner is `Ripe`. -/

namespace ToolScript.Json
open Text

/-- Whether a character ends the number or word in front of it. -/
def ends (c : Char) : Bool :=
  !isNumberChar c && !c.isAlpha

namespace Scanner

/-- The last token is complete as soon as something comes that ends it. -/
structure Ripe (s : Scanner) (tokens : List Token) : Prop where
  step : ∀ c, ends c = true → s.step? c = begin? tokens c
  finish : s.finish? = some tokens.reverse

end Scanner

open Scanner

/-- A part of a text that gives its tokens, whatever comes behind it. -/
def Closes (part : List Char) (tokens : List Token) : Prop :=
  ∀ before, part.foldlM step? ⟨before, .between⟩ = some ⟨tokens.reverse ++ before, .between⟩

/-- A part of a text that gives its tokens if what comes behind it ends it. -/
def Reads (part : List Char) (tokens : List Token) : Prop :=
  ∀ before, ∃ s, part.foldlM step? ⟨before, .between⟩ = some s ∧ s.Ripe (tokens.reverse ++ before)

section
variable {a b : List Char} {ts us : List Token}

theorem Closes.reads (h : Closes a ts) : Reads a ts := fun before =>
  ⟨_, h before, fun _ _ => rfl, rfl⟩

theorem Closes.append (h : Closes a ts) (h' : Closes b us) : Closes (a ++ b) (ts ++ us) := by
  intro before
  rw [List.foldlM_append, h before, Option.bind_eq_bind, Option.bind_some, h', List.reverse_append, List.append_assoc]

theorem Closes.append_reads (h : Closes a ts) (h' : Reads b us) : Reads (a ++ b) (ts ++ us) := by
  intro before
  obtain ⟨s, hs, ripe⟩ := h' (ts.reverse ++ before)
  refine ⟨s, ?_, by rwa [List.reverse_append, List.append_assoc]⟩
  rw [List.foldlM_append, h before]
  exact hs

theorem Reads.append {c : Char} (h : Reads a ts) (hc : ends c = true) (h' : Reads (c :: b) us) :
    Reads (a ++ c :: b) (ts ++ us) := by
  intro before
  obtain ⟨s, hs, ripe⟩ := h before
  obtain ⟨s', hs', ripe'⟩ := h' (ts.reverse ++ before)
  refine ⟨s', ?_, by rwa [List.reverse_append, List.append_assoc]⟩
  rw [List.foldlM_append, hs, Option.bind_eq_bind, Option.bind_some, List.foldlM_cons, ripe.step c hc]
  exact hs'

theorem Reads.tokens?_eq (h : Reads a ts) : tokens? a = some ts := by
  obtain ⟨s, hs, ripe⟩ := h []
  rw [tokens?, start, hs, Option.bind_some, ripe.finish, List.append_nil, List.reverse_reverse]

end

/-! ### Blanks and punctuation -/

theorem closes_blank {c : Char} (h : isJsonBlank c = true) : Closes [c] [] := by
  intro before
  simp [step?, begin?, h]

theorem closes_blanks {s : List Char} (h : ∀ c ∈ s, isJsonBlank c = true) : Closes s [] := by
  induction s with
  | nil => exact fun _ => rfl
  | cons c s ih =>
    exact (closes_blank (h c List.mem_cons_self)).append (ih fun d hd => h d (List.mem_cons_of_mem _ hd))

theorem closes_newline (indent : Nat) : Closes (Value.newline indent) [] :=
  closes_blanks fun c hc => by
    rcases List.mem_cons.mp hc with rfl | hc
    · rfl
    · rw [List.eq_of_mem_replicate hc]
      rfl

theorem closes_openBracket : Closes ['['] [.openBracket] := fun _ => rfl

theorem closes_closeBracket : Closes [']'] [.closeBracket] := fun _ => rfl

theorem closes_openBrace : Closes ['{'] [.openBrace] := fun _ => rfl

theorem closes_closeBrace : Closes ['}'] [.closeBrace] := fun _ => rfl

theorem closes_colon : Closes [':', ' '] [.colon] := fun _ => rfl

theorem closes_comma : Closes [','] [.comma] := fun _ => rfl

/-! ### Strings -/

section
variable {tokens : List Token}

theorem step?_hexDigit (p : Spelling) (left value : Nat) {d : Nat} (h : d < 16) :
    step? ⟨tokens, .unit p (left + 1) value⟩ (hexDigit d) = some ⟨tokens, .unit p left (16 * value + d)⟩ := by
  simp [step?, hexValue?_hexDigit h]

theorem step?_lastHexDigit (p : Spelling) (value : Nat) {d : Nat} (h : d < 16) :
    step? ⟨tokens, .unit p 0 value⟩ (hexDigit d) = some ⟨tokens, .string (p.pushUnit (16 * value + d))⟩ := by
  simp [step?, hexValue?_hexDigit h]

theorem foldlM_hexDigits (p : Spelling) (width left value n : Nat) :
    (hexDigits width n).foldlM step? ⟨tokens, .unit p (width + left) value⟩ =
      some ⟨tokens, .unit p left (value * 16 ^ width + n % 16 ^ width)⟩ := by
  induction width generalizing left n with
  | zero => simp [hexDigits, Nat.mod_one]
  | succ width ih =>
    have hvalue : 16 * (value * 16 ^ width + n / 16 % 16 ^ width) + n % 16 =
        value * 16 ^ (width + 1) + n % 16 ^ (width + 1) := by
      rw [Nat.pow_succ', Nat.mod_mul]
      ring
    rw [hexDigits, List.foldlM_append, Nat.add_right_comm, Nat.add_assoc, ih, Option.bind_eq_bind, Option.bind_some,
      List.foldlM_cons, step?_hexDigit p left _ (Nat.mod_lt n (by decide)), hvalue]
    rfl

theorem foldlM_unit (p : Spelling) {n : Nat} (h : n < 0x10000) :
    (hexDigits 4 n).foldlM step? ⟨tokens, .unit p 3 0⟩ = some ⟨tokens, .string (p.pushUnit n)⟩ := by
  have hvalue : 16 * (0 * 16 ^ 3 + n / 16 % 16 ^ 3) + n % 16 = n := by omega
  rw [hexDigits, List.foldlM_append, foldlM_hexDigits p 3 0, Option.bind_eq_bind, Option.bind_some, List.foldlM_cons,
    step?_lastHexDigit p _ (Nat.mod_lt n (by decide)), hvalue]
  rfl

/-- The code of a control character is no half of a surrogate pair. -/
theorem pushUnit_toNat {chars : List Char} {c : Char} (h : c.toNat < 0x20) :
    Spelling.pushUnit ⟨chars, none, true⟩ c.toNat = ⟨c :: chars, none, true⟩ := by
  have hhigh : Spelling.isHigh c.toNat = false := by simp [Spelling.isHigh]; omega
  have hlow : Spelling.isLow c.toNat = false := by simp [Spelling.isLow]; omega
  simp [Spelling.pushUnit, hhigh, hlow, Spelling.push, Char.ofNat_toNat]

theorem foldlM_escape (chars : List Char) (c : Char) :
    (escape c).foldlM step? ⟨tokens, .string ⟨chars, none, true⟩⟩ =
      some ⟨tokens, .string ⟨c :: chars, none, true⟩⟩ := by
  by_cases hq : c = '"'
  · subst hq; rfl
  by_cases hb : c = '\\'
  · subst hb; rfl
  by_cases h8 : c = '\x08'
  · subst h8; rfl
  by_cases hf : c = '\x0c'
  · subst hf; rfl
  by_cases hn : c = '\n'
  · subst hn; rfl
  by_cases hr : c = '\r'
  · subst hr; rfl
  by_cases ht : c = '\t'
  · subst ht; rfl
  by_cases hcontrol : c.toNat < 0x20
  · have hunit : (hexDigits 4 c.toNat).foldlM step? ⟨tokens, .unit ⟨chars, none, true⟩ 3 0⟩ =
        some ⟨tokens, .string ⟨c :: chars, none, true⟩⟩ := by
      rw [foldlM_unit _ (Nat.lt_trans hcontrol (by decide)), pushUnit_toNat hcontrol]
    simpa [escape, hq, hb, h8, hf, hn, hr, ht, hcontrol, step?] using hunit
  · simp [escape, hq, hb, h8, hf, hn, hr, ht, hcontrol, step?, Spelling.push]

theorem foldlM_escapes (chars s : List Char) :
    (s.flatMap escape).foldlM step? ⟨tokens, .string ⟨chars, none, true⟩⟩ =
      some ⟨tokens, .string ⟨s.reverse ++ chars, none, true⟩⟩ := by
  induction s generalizing chars with
  | nil => rfl
  | cons c s ih =>
    rw [List.flatMap_cons, List.foldlM_append, foldlM_escape, Option.bind_eq_bind, Option.bind_some, ih]
    simp

end

theorem closes_quoted (s : String) : Closes (quoted s) [.string (some s)] := by
  intro before
  have hopen : step? ⟨before, .between⟩ '"' = some ⟨before, .string ⟨[], none, true⟩⟩ := rfl
  rw [quoted, List.foldlM_cons, hopen, Option.bind_eq_bind, Option.bind_some, List.foldlM_append, foldlM_escapes]
  simp [step?, Spelling.finish]

/-! ### Numbers and words -/

section
variable {tokens : List Token} {written : List Char} {t : Token}

theorem ripe_number (h : number? written.reverse = some t) : Ripe ⟨tokens, .number written⟩ (t :: tokens) where
  step c hc := by
    have hnumber : isNumberChar c = false := by simp_all [ends]
    simp [step?, hnumber, h]
  finish := by simp [finish?, h]

theorem ripe_word (h : word? written.reverse = some t) : Ripe ⟨tokens, .word written⟩ (t :: tokens) where
  step c hc := by
    have hletter : c.isAlpha = false := by simp_all [ends]
    simp [step?, hletter, h]
  finish := by simp [finish?, h]

theorem begin?_number {c : Char} (h : c = '-' ∨ c.isDigit = true) : begin? tokens c = some ⟨tokens, .number [c]⟩ := by
  rcases h with rfl | hd
  · rfl
  · have hother := forall_ascii (P := fun c => c.isDigit = true → isJsonBlank c = false ∧ c ≠ '"') (by decide +kernel)
      (toNat_lt_of_isAlphanum (by simp [Char.isAlphanum, hd])) hd
    simp [begin?, hother, hd]

theorem foldlM_digits {s : List Char} (h : ∀ c ∈ s, c.isDigit = true) :
    s.foldlM step? ⟨tokens, .number written⟩ = some ⟨tokens, .number (s.reverse ++ written)⟩ := by
  induction s generalizing written with
  | nil => rfl
  | cons c s ih =>
    have hc : isNumberChar c = true := by simp [isNumberChar, h c List.mem_cons_self]
    have hstep : step? ⟨tokens, .number written⟩ c = some ⟨tokens, .number (c :: written)⟩ := if_pos hc
    rw [List.foldlM_cons, hstep, Option.bind_eq_bind, Option.bind_some, ih fun d hd => h d (List.mem_cons_of_mem _ hd)]
    simp

end

theorem reads_number {c : Char} {s : List Char} {t : Token} (hc : c = '-' ∨ c.isDigit = true)
    (hs : ∀ d ∈ s, d.isDigit = true) (h : number? (c :: s) = some t) : Reads (c :: s) [t] := by
  intro before
  refine ⟨⟨before, .number (s.reverse ++ [c])⟩, ?_, ripe_number (by simpa using h)⟩
  have hbegin : step? ⟨before, .between⟩ c = some ⟨before, .number [c]⟩ := begin?_number hc
  rw [List.foldlM_cons, hbegin, Option.bind_eq_bind, Option.bind_some, foldlM_digits hs]

/-- An integer of at most 64 bits is read as it was written: its digits have no superfluous zero in front, and no zero
    has a sign. -/
theorem number?_intText {n : Int} (hmin : minInt64 ≤ n) (hmax : n ≤ maxUInt64) :
    number? (intText n) = some (.literal (.int n)) := by
  have hdigits : ∀ c ∈ decimalDigits n.natAbs, c.isDigit = true := fun _ => isDigit_of_mem_decimalDigits
  have hlead : (decimalDigits n.natAbs).head? ≠ some '0' ∨ (decimalDigits n.natAbs).length = 1 := by
    rcases Nat.eq_zero_or_pos n.natAbs with hzero | hpos
    · exact Or.inr (by rw [hzero]; rfl)
    · exact Or.inl (head?_decimalDigits hpos)
  have hne := decimalDigits_ne_nil n.natAbs
  rw [intText]
  split
  · rename_i hneg
    have hvalue : -|n| = n := by rw [abs_of_neg hneg, neg_neg]
    have hzero : n ≠ 0 := by omega
    simp [number?, Numeral.read?_sign_digits (Or.inr rfl) hdigits, isJsonNumber, numberNode, Numeral.isInteger, Numeral.toInt,
      Numeral.negative, digitsValue_decimalDigits, hne, hlead, hvalue, hzero, hmin, hmax]
  · rename_i hneg
    have hvalue : |n| = n := abs_of_nonneg (Int.not_lt.mp hneg)
    simp [number?, Numeral.read?_digits hdigits, isJsonNumber, numberNode, Numeral.isInteger, Numeral.toInt,
      Numeral.negative, digitsValue_decimalDigits, hne, hlead, hvalue, hmin, hmax]

theorem reads_intText {n : Int} (hmin : minInt64 ≤ n) (hmax : n ≤ maxUInt64) : Reads (intText n) [.literal (.int n)] := by
  have hread := number?_intText hmin hmax
  have hdigits : ∀ c ∈ decimalDigits n.natAbs, c.isDigit = true := fun _ => isDigit_of_mem_decimalDigits
  rw [intText] at hread ⊢
  split
  · rename_i hneg
    rw [if_pos hneg] at hread
    exact reads_number (Or.inl rfl) hdigits hread
  · rename_i hneg
    rw [if_neg hneg] at hread
    obtain ⟨c, s, hs⟩ := List.exists_cons_of_ne_nil (decimalDigits_ne_nil n.natAbs)
    rw [hs] at hread hdigits ⊢
    obtain ⟨hc, hrest⟩ := List.forall_mem_cons.mp hdigits
    exact reads_number (Or.inr hc) hrest hread

theorem reads_null : Reads ['n', 'u', 'l', 'l'] [.literal .null] := fun _ => ⟨_, rfl, ripe_word rfl⟩

theorem reads_true : Reads ['t', 'r', 'u', 'e'] [.literal (.bool true)] := fun _ => ⟨_, rfl, ripe_word rfl⟩

theorem reads_false : Reads ['f', 'a', 'l', 's', 'e'] [.literal (.bool false)] := fun _ => ⟨_, rfl, ripe_word rfl⟩

end ToolScript.Json
