import ToolScript.Proofs.Json.Fields
import ToolScript.Proofs.Json.RoundTrip
import ToolScript.Proofs.Security.Handshake
import ToolScript.Proofs.Text.Removal

/-! # Comparing and reading identifiers

    A text compares as valid with an identifier exactly if it is read as this identifier. However an identifier was
    obtained, it is written in its four digits, so it is read back from what is written of it, as a text and in JSON,
    and compares as valid with no other one. -/

namespace ToolScript
open Text Json

namespace TurnId

/-! ### Ways to come by an identifier -/

/-- A text without the blanks around it, in upper case. -/
def capitals (s : String) : String :=
  String.ofList ((trim s.toList).map Char.toUpper)

/-- A number in upper-case hexadecimal digits, with zeros in front where it has less than four. -/
def paddedHex (n : Nat) : String :=
  String.ofList (((Nat.toDigits 16 n).leftpad 4 '0').map Char.toUpper)

/-- An identifier is decoded from a text in JSON. -/
def DecodedFrom (json : String) (t : TurnId) : Prop :=
  ∃ n, Node.read? json.toList = some n ∧ read? n = some t

/-- The ways to come by an identifier, with the text that is written of it. -/
inductive Obtained : TurnId → String → Prop
  | read {s : String} {t : TurnId} (accepted : ofText s = .ok t) : Obtained t (capitals s)
  | ofBits (bits : UInt16) : Obtained ⟨bits⟩ (paddedHex bits.toNat)
  | ofTurn (salt session : String) (turn : Nat) :
    Obtained (Security.turnId salt session turn) (Security.turnDigits Digest.hmacSha256 salt session turn)
  | decoded {json s : String} {t : TurnId} (string : Node.read? json.toList = some (.string s))
    (accepted : t.DecodedFrom json) : Obtained t (capitals s)

/-- What is written of an identifier is its text, from which it is read back, also through JSON. -/
structure Canonical (t : TurnId) (written : String) : Prop where
  text : t.text = written
  read : ofText written = .ok t
  decoded : ∀ other : TurnId, other.DecodedFrom (Value.string written).compact ↔ other = t

variable {t : TurnId} {s written : String}

theorem read?_string_iff : read? (.string s) = some t ↔ ofText s = .ok t := by
  rw [read?, Node.string?, Option.bind_some]
  cases ofText s with
  | error e => simp [Except.toOption]
  | ok other => simp [Except.toOption]

theorem decodedFrom_iff {json : String} (h : Node.read? json.toList = some (.string s)) :
    t.DecodedFrom json ↔ ofText s = .ok t := by
  rw [← read?_string_iff, DecodedFrom, h]
  constructor
  · rintro ⟨n, hn, hread⟩
    cases hn
    exact hread
  · exact fun hread => ⟨_, rfl, hread⟩

theorem text_eq_capitals (h : ofText s = .ok t) : t.text = capitals s := by
  rw [text, capitals, ofText_eq_ok_iff.mp h]

theorem text_eq_paddedHex (bits : UInt16) : text ⟨bits⟩ = paddedHex bits.toNat := by
  rw [text, digits, hexDigits_eq_leftpad (by decide) bits.toNat_lt, paddedHex]

theorem Obtained.text_eq (h : Obtained t written) : t.text = written := by
  cases h with
  | read accepted => exact text_eq_capitals accepted
  | ofBits bits => exact text_eq_paddedHex bits
  | ofTurn salt session turn => exact Security.text_turnIdBy Security.length_hmacSha256 salt session turn
  | decoded string accepted => exact text_eq_capitals ((decodedFrom_iff string).mp accepted)

theorem canonical_text (t : TurnId) : t.Canonical t.text where
  text := rfl
  read := ofText_text
  decoded other := by
    rw [decodedFrom_iff (Node.read?_compact_string t.text), ofText_text, Except.ok.injEq]
    exact eq_comm

end TurnId

/-! ### Comparing -/

namespace Security
variable {s : String} {t : TurnId}

theorem validate_eq_valid_iff : validate (some s) t.text = .valid ↔ TurnId.ofText s = .ok t := by
  have hcase : (trim s.toList).map Char.toLower = t.digits.map Char.toLower ↔ TurnId.ofText s = .ok t := by
    rw [TurnId.ofText_eq_ok_iff, ← map_toUpper_eq_iff, TurnId.map_toUpper_digits]
  rw [validate_some, ← hcase]
  split
  · rename_i hempty
    -- A blank text has not the four digits that there would have to be.
    have hdigits : t.digits.map Char.toLower ≠ [] := by
      rw [← List.length_pos_iff, List.length_map, TurnId.length_digits]
      decide
    rw [List.isEmpty_iff.mp hempty, List.map_nil]
    exact ⟨nofun, fun h => absurd h.symm hdigits⟩
  · split
    · rename_i hsame
      exact iff_of_true rfl hsame
    · rename_i hother
      exact iff_of_false nofun hother

theorem validate_eq_missing_iff : validate (some s) t.text = .missing ↔ ∀ c ∈ s.toList, isBlank c = true := by
  rw [validate_some, ← List.all_eq_true, ← trim_eq_nil_iff, ← List.isEmpty_iff]
  split
  · rename_i hempty
    exact iff_of_true rfl hempty
  · rename_i hfull
    exact iff_of_false (by split <;> nofun) hfull

/-- A text compares as valid with an identifier exactly if it is read as it, and as missing exactly if it is blank.
    Identifiers are read back from what is written of them in whatever way they were obtained, and no two of them
    compare as valid with each other. -/
theorem validate_agrees_ofText (s : String) (t : TurnId) :
    (validate (some s) t.text = .valid ↔ TurnId.ofText s = .ok t) ∧
    (validate (some s) t.text = .missing ↔ ∀ c ∈ s.toList, isBlank c = true) ∧
    ∀ written, t.Obtained written → t.Canonical written ∧ ∀ other written', TurnId.Obtained other written' →
      (validate (some written) written' = .valid ↔ t = other) ∧ (t = other ↔ written = written') := by
  refine ⟨validate_eq_valid_iff, validate_eq_missing_iff, fun written h => ?_⟩
  obtain rfl := h.text_eq
  refine ⟨t.canonical_text, fun other written' h' => ?_⟩
  obtain rfl := h'.text_eq
  have hread : TurnId.ofText t.text = .ok other ↔ t = other := by rw [TurnId.ofText_text, Except.ok.injEq]
  refine ⟨validate_eq_valid_iff.trans hread, fun h => congrArg TurnId.text h, fun h => ?_⟩
  rw [← hread, h, TurnId.ofText_text]

/-- An identifier decoded from a string with an escape, with blanks and both cases in it, and another one from bits. -/
theorem validate_agrees_ofText_escaped :
    TurnId.Obtained ⟨0xA9B2⟩ "A9B2" ∧ TurnId.Obtained ⟨0xA9B⟩ "0A9B" ∧ TurnId.ofText "\u3000a9B2\n" = .ok ⟨0xA9B2⟩ ∧
      validate (some "\u3000a9B2\n") (TurnId.text ⟨0xA9B2⟩) = .valid ∧ TurnId.Canonical ⟨0xA9B2⟩ "A9B2" ∧
      validate (some "A9B2") "0A9B" ≠ .valid := by
  have hstring : Node.read? "\"\\u00619B2 \"".toList = some (.string "a9B2 ") := rfl
  have hread : TurnId.ofText "a9B2 " = .ok ⟨0xA9B2⟩ := by decide +kernel
  have hdecoded : TurnId.Obtained ⟨0xA9B2⟩ "A9B2" := by
    have hcapitals : TurnId.capitals "a9B2 " = "A9B2" := by decide +kernel
    exact hcapitals ▸ .decoded hstring ((TurnId.decodedFrom_iff hstring).mpr hread)
  have hbits : TurnId.Obtained ⟨0xA9B⟩ "0A9B" := by
    have hpadded : TurnId.paddedHex 0xA9B = "0A9B" := by decide +kernel
    exact hpadded ▸ .ofBits 0xA9B
  have hblank : TurnId.ofText "\u3000a9B2\n" = .ok ⟨0xA9B2⟩ := by decide +kernel
  obtain ⟨hvalid, -, hobtained⟩ := validate_agrees_ofText "\u3000a9B2\n" ⟨0xA9B2⟩
  obtain ⟨hcanonical, hdistinct⟩ := hobtained _ hdecoded
  have hne : (⟨0xA9B2⟩ : TurnId) ≠ ⟨0xA9B⟩ := by decide
  exact ⟨hdecoded, hbits, hblank, hvalid.mpr hblank, hcanonical, fun h => hne ((hdistinct _ _ hbits).1.mp h)⟩

end Security
end ToolScript
