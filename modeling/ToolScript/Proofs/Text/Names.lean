import ToolScript.Proofs.Text.NormalKey
import ToolScript.Proofs.Text.Paths

/-! # Names in parts

    The normal form of a name is put together from those of its parts, and joiners put in anywhere do not show in it.
    The last component of a name is its last run of characters other than separators, which has nothing left to be
    repaired. -/

namespace ToolScript.Text

/-! ### Joiners -/

/-- A text with joiners put in anywhere. -/
inductive Joined : List Char → List Char → Prop
  | nil : Joined [] []
  | keep {s t : List Char} (c : Char) (before : Joined s t) : Joined (c :: s) (c :: t)
  | join {s t : List Char} {c : Char} (joiner : isJoiner c = true) (before : Joined s t) : Joined s (c :: t)

theorem normalChars_cons (c : Char) (s : List Char) : normalChars (c :: s) = normalChars [c] ++ normalChars s :=
  normalChars_append [c] s

theorem normalChars_joiner {c : Char} (h : isJoiner c = true) : normalChars [c] = [] := by
  simp [normalChars, h]

theorem normalChars_of_joined {s t : List Char} (h : Joined s t) : normalChars t = normalChars s := by
  induction h with
  | nil => rfl
  | keep c _ ih => rw [normalChars_cons, ih, ← normalChars_cons]
  | join joiner _ ih => rw [normalChars_cons, normalChars_joiner joiner, List.nil_append, ih]

/-- The names that are their own normal forms. -/
theorem normalKey_eq_self_iff {name : String} : normalKey name = name ↔ ∀ c ∈ name.toList, Settled c := by
  rw [← String.toList_inj, normalKey, String.toList_ofList]
  constructor
  · intro h c hc
    rw [← h] at hc
    exact settled_of_mem_normalChars hc
  · exact normalChars_of_settled

/-! ### Last components -/

theorem lastRun_eq_nil_iff {s : List Char} : lastRun s = [] ↔ ∀ c ∈ s, isSeparator c = true := by
  have hall : s.reverse.dropWhile isSeparator = [] ↔ ∀ c ∈ s, isSeparator c = true := by
    simp only [List.dropWhile_eq_nil_iff, List.mem_reverse]
  rw [← hall, lastRun, List.reverse_eq_nil_iff]
  constructor
  · intro hnil
    -- What is left after the separators at the end begins with another character, which the run would have.
    have hfirst := List.head?_dropWhile_not isSeparator s.reverse
    cases hrest : s.reverse.dropWhile isSeparator with
    | nil => rfl
    | cons c rest =>
      rw [hrest] at hfirst hnil
      have hc : isSeparator c = false := by simpa using hfirst
      simp [hc] at hnil
  · intro hnil
    rw [hnil, List.takeWhile_nil]

theorem pathRepaired_eq_empty_iff {name : String} :
    pathRepaired name = "" ↔ ∀ c ∈ name.toList, isSeparator c = true := by
  rw [← String.toList_eq_nil_iff, toList_pathRepaired, lastRun_eq_nil_iff]

/-- The last run of characters other than separators in a name, or nothing where the name has only separators. -/
def HasLast (name component : String) : Prop :=
  EndsIn name component ∨ component = "" ∧ ∀ c ∈ name.toList, isSeparator c = true

theorem hasLast_iff {name component : String} : HasLast name component ↔ pathRepaired name = component := by
  rw [HasLast, endsIn_iff, ← pathRepaired_eq_empty_iff]
  constructor
  · rintro (⟨h, -⟩ | ⟨rfl, h⟩)
    · exact h
    · exact h
  · rintro rfl
    by_cases hempty : pathRepaired name = ""
    · exact Or.inr ⟨hempty, hempty⟩
    · exact Or.inl ⟨rfl, hempty⟩

theorem lastComponent?_eq_none_iff {name : String} :
    lastComponent? name = none ↔ ∀ c ∈ name.toList, isSeparator c = false := by
  simp [lastComponent?]

theorem lastComponent?_eq_some_iff {name component : String} :
    lastComponent? name = some component ↔ (∃ c ∈ name.toList, isSeparator c = true) ∧ HasLast name component := by
  have habsent : (∃ c ∈ name.toList, isSeparator c = true) ↔ lastComponent? name ≠ none := by
    simp [lastComponent?_eq_none_iff]
  rw [hasLast_iff, pathRepaired, habsent]
  cases lastComponent? name with
  | none => simp
  | some found => simp

theorem pathRepaired_pathRepaired (name : String) : pathRepaired (pathRepaired name) = pathRepaired name := by
  rw [← String.toList_inj, toList_pathRepaired, toList_pathRepaired, lastRun_of_plain fun _ => plain_of_mem_lastRun]

/-! ### Both forms -/

/-- Normal forms are put together from those of the parts, are their own normal forms, and show no joiners that were
    put in. A name with separators has its last run of other characters for a last component, a name without them has
    none, and repairing a path once more changes nothing. -/
theorem names_in_parts (a b name : String) :
    (normalKey (a ++ b) = normalKey a ++ normalKey b ∧ normalKey (normalKey a) = normalKey a ∧
      (normalKey a = a ↔ ∀ c ∈ a.toList, Settled c) ∧
      ∀ wide : String, Joined a.toList wide.toList → normalKey wide = normalKey a) ∧
    (lastComponent? name = none ↔ ∀ c ∈ name.toList, isSeparator c = false) ∧
    (∀ component, lastComponent? name = some component ↔
      (∃ c ∈ name.toList, isSeparator c = true) ∧ HasLast name component) ∧
    pathRepaired (pathRepaired name) = pathRepaired name := by
  refine ⟨⟨normalKey_append a b, normalKey_normalKey a, normalKey_eq_self_iff, fun wide h => ?_⟩,
    lastComponent?_eq_none_iff, fun _ => lastComponent?_eq_some_iff, pathRepaired_pathRepaired name⟩
  rw [normalKey, normalKey, normalChars_of_joined h]

/-- A name with a capital that becomes two characters, and the same name with joiners in it. -/
theorem names_in_parts_dotted : Joined "a\u0130".toList "_a-_\u0130-".toList ∧
    normalKey "_a-_\u0130-" = normalKey "a\u0130" := by
  have hjoined : Joined "a\u0130".toList "_a-_\u0130-".toList :=
    .join rfl (.keep 'a' (.join rfl (.join rfl (.keep '\u0130' (.join rfl .nil)))))
  obtain ⟨⟨-, -, -, hwide⟩, -⟩ := names_in_parts "a\u0130" "" ""
  exact ⟨hjoined, hwide _ hjoined⟩

end ToolScript.Text
