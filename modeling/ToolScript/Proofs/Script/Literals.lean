import ToolScript.Proofs.Number.Rounding
import ToolScript.Proofs.Script.Partition
import ToolScript.Script.Tree

/-! # Values of numbers

    A number of a script is a row of digits with one point at most. Tools are given the integer that it writes, or the
    nearest floating-point number where it has a point or its integer is beyond 64 bits. A number that is too large for
    that becomes null: numbers are refused for their points alone, never for their size. -/

namespace ToolScript

/-- The values that are numbers. -/
def Value.IsNumber : Value → Prop
  | .int _ => True
  | .float x => x.isFinite = true
  | _ => False

namespace Script

/-! ### Values -/

/-- What a row is as a value: it writes `digitsOf row / 10 ^ placesOf row`. -/
structure Means (row : List Char) (v : Value) : Prop where
  integer : '.' ∉ row → (digitsOf row : Int) ≤ maxInt64 → v = .int (digitsOf row)
  nearest : '.' ∈ row ∨ maxInt64 < digitsOf row → ∀ m, Magnitude.ofDecimal (digitsOf row) (-(placesOf row : Int)) = some m →
    v = .float (.finite false m)
  isNumber_iff : v.IsNumber ↔ digitsOf row < Magnitude.tooLarge * powTen (placesOf row)
  null_iff : v = .null ↔ Magnitude.tooLarge * powTen (placesOf row) ≤ digitsOf row

theorem StandsFor.means {row : List Char} {n : Number} (h : StandsFor row n) : Means row (Literal.number n).value := by
  cases h with
  | integer hpoint hfits =>
    have hmin : minInt64 ≤ (digitsOf row : Int) := Int.le_trans (by decide) (Int.natCast_nonneg _)
    have hsmall : digitsOf row < Magnitude.tooLarge * powTen (placesOf row) := by
      have hint : isInt64 (digitsOf row) = true := by simp [isInt64, hmin, hfits]
      simpa [placesOf_eq_zero hpoint, powTen] using natAbs_lt_tooLarge hint
    refine ⟨fun _ _ => rfl, fun hfloat => ?_, iff_of_true trivial hsmall, iff_of_false Value.noConfusion (Nat.not_le.mpr hsmall)⟩
    exact (hfloat.elim hpoint (Int.not_lt.mpr hfits)).elim
  | @nearest m hpoints hfloat hnearest =>
    refine ⟨fun hpoint hfits => ?_, fun _ m' hm => ?_, iff_of_true rfl hnearest.small,
      iff_of_false Value.noConfusion (Nat.not_le.mpr hnearest.small)⟩
    · exact (hfloat.elim hpoint (Int.not_lt.mpr hfits)).elim
    · rw [Magnitude.ofDecimal_neg, (Magnitude.ofRatio_eq_some_iff (powTen_pos _)).mpr hnearest] at hm
      cases hm
      rfl
  | infinite hpoints hfloat hlarge =>
    refine ⟨fun hpoint hfits => ?_, fun _ m' hm => ?_, iff_of_false id (Nat.not_lt.mpr hlarge), iff_of_true rfl hlarge⟩
    · exact (hfloat.elim hpoint (Int.not_lt.mpr hfits)).elim
    · rw [(Magnitude.ofDecimal_neg_eq_none_iff _ _).mpr hlarge] at hm
      cases hm

/-- A number is given to tools as a number exactly if it is not too large, and as null if it is; an integer of 64 bits is
    given as itself. The only numbers that are refused are those with a second point. -/
theorem number_values (source : String) :
    (∀ tokens, tokenize source = .ok tokens → ∃ pieces last, Divides source.toList pieces last ∧
      tokens = tokensOf pieces last ∧
      ∀ piece ∈ pieces, ∀ n, piece.token.kind = .number n → Means piece.lexeme (Literal.number n).value) ∧
    ∀ e written, tokenize source = .error e → e.fault = .malformedNumber written → 1 < written.toList.count '.' := by
  refine ⟨fun tokens h => ?_, fun e written h hfault => ?_⟩
  · obtain ⟨pieces, last, hdivides, rfl⟩ := divides_of_tokenize h
    refine ⟨pieces, last, hdivides, rfl, fun piece hpiece n hkind => ?_⟩
    have hlexeme := hdivides.splits.lexeme piece hpiece
    rw [hkind] at hlexeme
    exact (standsFor_of_lexeme hlexeme).means
  · obtain ⟨pieces, gap, bad, hbreaks⟩ := breaks_of_tokenize h
    have hbroken := hbreaks.broken
    rw [hfault] at hbroken
    cases hbroken with
    | @malformedNumber c row after hc hrow hend hpoints =>
      rw [String.toList_ofList]
      exact Nat.lt_of_lt_of_le hpoints (List.count_le_count_cons)

/-- A source that is a number alone. -/
theorem tokenize_number {c : Char} {s : List Char} {n : Number} (hc : c.isDigit = true) (hs : IsRow s)
    (hn : StandsFor (c :: s) n) : ∃ tokens, tokenize (String.ofList (c :: s)) = .ok tokens ∧
      ⟨.number n, .start⟩ ∈ tokens := by
  have hsplits : Splits [] ([] ++ ((c :: s) ++ [])) [⟨[], c :: s, .number n, place []⟩] [] :=
    .cons .nil (.number hc hs hn) nofun .nil
  rw [List.append_nil, List.nil_append] at hsplits
  refine ⟨_, tokenize_of_splits (by rwa [String.toList_ofList]) (.gap .nil), ?_⟩
  exact List.mem_append_left _ (List.mem_singleton_self _)

/-- The integer 10^309, which is too large for a floating-point number. -/
def wideInteger : List Char :=
  '1' :: List.replicate 309 '0'

theorem wideInteger_null : ∃ tokens n, tokenize (String.ofList wideInteger) = .ok tokens ∧ ⟨.number n, .start⟩ ∈ tokens ∧
    (Literal.number n).value = .null := by
  have hs : IsRow (List.replicate 309 '0') := List.forall_mem_replicate.mpr (Or.inr (Or.inl rfl))
  have hpoints : wideInteger.count '.' ≤ 1 := by decide +kernel
  have hwide : maxInt64 < digitsOf wideInteger := by decide +kernel
  have hlarge : Magnitude.tooLarge * powTen (placesOf wideInteger) ≤ digitsOf wideInteger := by decide +kernel
  obtain ⟨tokens, htokens, hmem⟩ := tokenize_number rfl hs (.infinite hpoints (Or.inr hwide) hlarge)
  exact ⟨tokens, _, htokens, hmem, rfl⟩

end Script
end ToolScript
