import ToolScript.Proofs.Tool.Registration

/-! # The keys of a registry

    A registration writes two keys: the normal form of the name, which it takes over, and the name as spelled, which it
    takes only while it is free. As a normal form is its own normal form, no key is both the spelling of a name that is
    no normal form and the normal form of another name, so the two rules never meet under one key. -/

namespace ToolScript.Registry
open Text

variable {α : Type}

/-- The last entry whose name has a given normal form. -/
def LastUnder (es : List (String × α)) (key : String) (a : α) : Prop :=
  ∃ before name after, es = before ++ (name, a) :: after ∧ normalKey name = key ∧ ∀ e ∈ after, normalKey e.1 ≠ key

/-- The first entry with exactly a given name. -/
def FirstNamed (es : List (String × α)) (name : String) (a : α) : Prop :=
  ∃ before after, es = before ++ (name, a) :: after ∧ ∀ e ∈ before, e.1 ≠ name

/-- A key that one of the entries is registered under: the normal form of a name, or a name that is none. -/
def KeyOf (es : List (String × α)) (key : String) : Prop :=
  ∃ e ∈ es, normalKey e.1 = key ∨ e.1 = key ∧ normalKey e.1 ≠ e.1

/-- What a registry holds after the registration of some entries. -/
structure Keeps (r : Registry α) (es : List (String × α)) : Prop where
  keys : ∀ key, key ∈ r.keys ↔ KeyOf es key
  /-- The keys are listed in order, each of them once. -/
  sorted : r.keys.Pairwise (· < ·)
  normal : ∀ key a, normalKey key = key → (r.get? key = some a ↔ LastUnder es key a)
  spelled : ∀ key a, normalKey key ≠ key → (r.get? key = some a ↔ FirstNamed es key a)
  /-- A name that is no normal form is not the normal form of any name either. -/
  apart : ∀ e ∈ es, normalKey e.1 ≠ e.1 → ∀ f ∈ es, normalKey f.1 ≠ e.1
  /-- Later names of other normal forms leave a normal form alone, however they are spelled. -/
  unshadowed : ∀ key more, normalKey key = key → (∀ e ∈ more, normalKey e.1 ≠ key) →
    (r.registerAll more).get? key = r.get? key
  /-- A spelling that is taken stays with its tool, whatever is registered later. -/
  unwritten : ∀ key a more, normalKey key ≠ key → r.get? key = some a → (r.registerAll more).get? key = some a

/-! ### First and last entries -/

theorem find?_reverse_eq_some_iff {p : α → Bool} {l : List α} {a : α} :
    l.reverse.find? p = some a ↔ ∃ before after, l = before ++ a :: after ∧ p a = true ∧ ∀ b ∈ after, p b = false := by
  rw [List.find?_eq_some_iff_append]
  constructor
  · rintro ⟨hp, after, before, hsplit, hafter⟩
    refine ⟨before.reverse, after.reverse, ?_, hp, fun b hb => by simpa using hafter b (List.mem_reverse.mp hb)⟩
    rw [← List.reverse_reverse l, hsplit]
    simp
  · rintro ⟨before, after, rfl, hp, hafter⟩
    exact ⟨hp, after.reverse, before.reverse, by simp, fun b hb => by simp [hafter b (List.mem_reverse.mp hb)]⟩

theorem lastUnder_iff {es : List (String × α)} {key : String} {a : α} :
    (es.reverse.find? fun e => normalKey e.1 == key).map (·.2) = some a ↔ LastUnder es key a := by
  rw [Option.map_eq_some_iff]
  constructor
  · rintro ⟨e, hfind, rfl⟩
    obtain ⟨before, after, hsplit, hname, hafter⟩ := find?_reverse_eq_some_iff.mp hfind
    exact ⟨before, e.1, after, hsplit, by simpa using hname, fun f hf => by simpa using hafter f hf⟩
  · rintro ⟨before, name, after, hsplit, hname, hafter⟩
    refine ⟨(name, a), find?_reverse_eq_some_iff.mpr ⟨before, after, hsplit, by simpa using hname, fun e he => ?_⟩, rfl⟩
    simpa using hafter e he

theorem firstNamed_iff {es : List (String × α)} {name : String} {a : α} :
    (es.find? fun e => e.1 == name).map (·.2) = some a ↔ FirstNamed es name a := by
  rw [Option.map_eq_some_iff]
  constructor
  · rintro ⟨e, hfind, rfl⟩
    obtain ⟨hname, before, after, hsplit, hbefore⟩ := List.find?_eq_some_iff_append.mp hfind
    obtain rfl : e.1 = name := by simpa using hname
    exact ⟨before, after, hsplit, fun f hf => by simpa using hbefore f hf⟩
  · rintro ⟨before, after, hsplit, hbefore⟩
    refine ⟨(name, a), List.find?_eq_some_iff_append.mpr ⟨by simp, before, after, hsplit, fun f hf => ?_⟩, rfl⟩
    simpa using hbefore f hf

/-! ### What is found -/

section
variable {es : List (String × α)} {key : String}

theorem get?_empty (key : String) : (empty : Registry α).get? key = none := rfl

theorem get?_registered (hkey : normalKey key = key) :
    (empty.registerAll es).get? key = (es.reverse.find? fun e => normalKey e.1 == key).map (·.2) := by
  rw [get?_registerAll _ _ hkey, get?_empty, Option.or_none]

theorem get?_registered_spelling (hkey : normalKey key ≠ key) :
    (empty.registerAll es).get? key = (es.find? fun e => e.1 == key).map (·.2) := by
  rw [get?_registerAll_spelling _ _ hkey, get?_empty, Option.none_or]

theorem mem_keys_registered : key ∈ (empty.registerAll es).keys ↔ KeyOf es key := by
  have hfound : key ∈ (empty.registerAll es).keys ↔ ((empty.registerAll es).get? key).isSome = true := by
    rw [keys, Dict.mem_keys_iff, Dict.contains_eq_isSome_get?, get?]
  rw [hfound]
  by_cases hkey : normalKey key = key
  · simp only [get?_registered hkey, Option.isSome_map, List.find?_isSome, List.mem_reverse, beq_iff_eq]
    constructor
    · rintro ⟨e, he, hname⟩
      exact ⟨e, he, Or.inl hname⟩
    · rintro ⟨e, he, hname | ⟨rfl, hname⟩⟩
      · exact ⟨e, he, hname⟩
      · exact absurd hkey hname
  · simp only [get?_registered_spelling hkey, Option.isSome_map, List.find?_isSome, beq_iff_eq]
    constructor
    · rintro ⟨e, he, rfl⟩
      exact ⟨e, he, Or.inr ⟨rfl, hkey⟩⟩
    · rintro ⟨e, he, rfl | ⟨hname, -⟩⟩
      · exact absurd (normalKey_normalKey e.1) hkey
      · exact ⟨e, he, hname⟩

/-- Later names of other normal forms leave a normal form alone. -/
theorem get?_registerAll_of_others {r : Registry α} (hkey : normalKey key = key) (hes : ∀ e ∈ es, normalKey e.1 ≠ key) :
    (r.registerAll es).get? key = r.get? key := by
  have hnone : (es.reverse.find? fun e => normalKey e.1 == key) = none :=
    List.find?_eq_none.mpr fun e he => by simpa using hes e (List.mem_reverse.mp he)
  rw [get?_registerAll _ _ hkey, hnone, Option.map_none, Option.none_or]

end

/-- After the registration of some entries, in any order and with any repetitions, the keys are the normal forms of all
    names and those names that are none. Each normal form has the last entry whose name has it, and each other name the
    first entry with exactly this name. -/
theorem registerAll_keeps (es : List (String × α)) : (empty.registerAll es).Keeps es where
  keys _ := mem_keys_registered
  sorted := List.pairwise_map.mpr (empty.registerAll es).tools.sorted
  normal key a hkey := by rw [get?_registered hkey, lastUnder_iff]
  spelled key a hkey := by rw [get?_registered_spelling hkey, firstNamed_iff]
  apart e _ he f _ hf := he (hf ▸ normalKey_normalKey f.1)
  unshadowed _ _ := get?_registerAll_of_others
  unwritten key a more hkey ha := by
    rw [get?_registerAll_spelling _ _ hkey, ha, Option.some_or]

example : (empty.registerAll [("echo_text", 1), ("Echo-Text", 2), ("echo_text", 3)]).tools.entries =
    [("Echo-Text", 2), ("echo_text", 1), ("echotext", 3)] := by decide +kernel

end ToolScript.Registry
