import ToolScript.Proofs.Markup.Decomposition
import ToolScript.Proofs.Markup.TurnId
import ToolScript.Security.Verdict

/-! # The blocks that a verdict lets through

    Under an expected identifier a block runs if it is written in the tags of the identifier, or, where the policy
    falls back, in tags without digits. This is said of the text of the block alone (`Authorised`), and it is what
    the verdict decides from the digits that were found in the tag (`verdict_permits_iff`). -/

namespace ToolScript.Security
open Text Markup

/-! ### Authorised blocks -/

/-- A text begins with one text and ends with another, case aside. -/
def Wrapped (first last s : List Char) : Prop :=
  (∃ front, front <+: s ∧ front.map Char.toLower = first.map Char.toLower) ∧
    ∃ back, back <:+ s ∧ back.map Char.toLower = last.map Char.toLower

/-- The text of a block has the tags of the identifier, or tags without one where the policy falls back. -/
def Authorised (expected : TurnId) (policy : Policy) (b : Block) : Prop :=
  Wrapped expected.openTag.toList expected.closeTag.toList b.raw ∨
    policy = .allowFallback ∧ Wrapped "<nit>".toList "</nit>".toList b.raw

/-- A formed block is wrapped in the tags of a name exactly if it is the name of its tag. -/
theorem wrapped_iff {b : Block} (h : Formed b) {name : List Char} (hname : '>' ∉ name) :
    Wrapped ('<' :: (name ++ ['>'])) ('<' :: '/' :: (name ++ ['>'])) b.raw ↔
      b.mark.name.map Char.toLower = name.map Char.toLower := by
  obtain ⟨digits, htag, -⟩ := h.name
  constructor
  · rintro ⟨⟨front, hfront, hlower⟩, -⟩
    have hmem : ∀ s : List Char, '>' ∉ s → '>' ∉ s.map Char.toLower := fun s hs hs' =>
      hs (mem_of_mem_map_toLower (by decide) hs')
    refine eq_of_ended_prefix (s := (b.raw.map Char.toLower).tail) (c := '>') ?_ ?_
      (hmem _ (htag.not_mem (by decide) (by decide))) (hmem _ hname)
    · simp [Enclosed.raw, h.opening]
    · obtain ⟨rest, hrest⟩ := hfront.map Char.toLower
      rw [hlower] at hrest
      simp [← hrest]
  · intro hlower
    obtain ⟨other, hclosing, hother⟩ := h.closing
    refine ⟨⟨b.opening, ⟨b.body ++ b.closing, rfl⟩, ?_⟩, b.closing, ⟨b.opening ++ b.body, ?_⟩, ?_⟩
    · simp [h.opening, hlower]
    · simp [Enclosed.raw]
    · simp [hclosing, hother, hlower]

theorem validate_some (s : String) (t : TurnId) :
    validate (some s) t.text =
      if (trim s.toList).isEmpty then .missing
      else if (trim s.toList).map Char.toLower = t.digits.map Char.toLower then .valid else .invalid := by
  simp only [validate, Option.getD_some, TurnId.text, String.toList_ofList, TurnId.trim_digits]

theorem validate_digits {digits : List Char} (t : TurnId) (hlen : digits.length = 4)
    (hd : ∀ c ∈ digits, isHexDigit c = true) :
    validate (some (String.ofList (digits.map Char.toUpper))) t.text =
      if digits.map Char.toLower = t.digits.map Char.toLower then .valid else .invalid := by
  have hupper : ∀ c ∈ digits.map Char.toUpper, isBlank c = false := by
    intro c hc
    obtain ⟨d, hd', rfl⟩ := List.mem_map.mp hc
    exact isBlank_of_isAlphanum (isAlphanum_toUpper (isAlphanum_of_isHexDigit (hd d hd')))
  have hne : (digits.map Char.toUpper).isEmpty = false := by
    cases digits with
    | nil => cases hlen
    | cons c s => rfl
  have hlower : (digits.map Char.toUpper).map Char.toLower = digits.map Char.toLower := by
    simp [Function.comp_def, Char.toLower_toUpper_eq_toLower]
  simp only [validate_some, String.toList_ofList, trim_eq_self hupper, hne, hlower, Bool.false_eq_true, if_false]

theorem verdict_permits_iff {b : Block} (h : Formed b) (expected : TurnId) (policy : Policy) :
    (verdict b.turn? (some expected) policy).permits = true ↔ Authorised expected policy b := by
  have hid : Wrapped expected.openTag.toList expected.closeTag.toList b.raw ↔
      b.mark.name.map Char.toLower = ("nit-".toList ++ expected.digits).map Char.toLower := by
    have hname : '>' ∉ "nit-".toList ++ expected.digits := by
      simp [TurnId.not_mem_digits (t := expected) (c := '>') (by decide)]
    rw [← wrapped_iff h hname]
    simp [TurnId.openTag, TurnId.closeTag, TurnId.text]
  have hplain : Wrapped "<nit>".toList "</nit>".toList b.raw ↔ b.mark.name.map Char.toLower = ['n', 'i', 't'] :=
    wrapped_iff h (by decide : '>' ∉ ['n', 'i', 't'])
  rw [Authorised, hid, hplain]
  obtain ⟨digits, htag, hturn⟩ := h.name
  rw [hturn]
  generalize b.mark.name = name at htag
  cases htag with
  | plain hw =>
    rw [hw]
    cases policy <;> simp [verdict, validate, trim, trimLeft, trimRight, Verdict.permits]
  | @numbered word ds hw hlen hd =>
    have hne : (word ++ '-' :: ds).map Char.toLower ≠ ['n', 'i', 't'] := fun h => by
      have := congrArg List.length h
      simp [(isAlpha_of_word hw).1, hlen] at this
    have hdigits : (word ++ '-' :: ds).map Char.toLower = ("nit-".toList ++ expected.digits).map Char.toLower ↔
        ds.map Char.toLower = expected.digits.map Char.toLower := by
      simp [hw]
    simp only [hdigits, hne, and_false, or_false, verdict, Option.map_some, validate_digits expected hlen hd]
    by_cases heq : ds.map Char.toLower = expected.digits.map Char.toLower
    · simp [heq, Verdict.permits]
    · simp [heq, Verdict.permits]

end ToolScript.Security
