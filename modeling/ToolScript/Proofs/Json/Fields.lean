import Mathlib.Data.List.Forall2
import ToolScript.Json.Record

/-! # The fields of a record in a tree

    Which tree stands for a field of a record is said here of the tree alone: in an object it is the value of that
    name, in an array the item at the field's place. A record that is read has for each of its fields what such a tree
    is read as, or what an absent field means. -/

namespace ToolScript.Json

/-! ### Lists that are read -/

section
variable {α β : Type} {read : α → Option β} {l : List α} {l' : List β}

theorem forall₂_of_mapM (h : l.mapM read = some l') : List.Forall₂ (fun a b => read a = some b) l l' := by
  induction l generalizing l' with
  | nil =>
    cases h
    exact .nil
  | cons a l ih =>
    simp only [List.mapM_cons, Option.bind_eq_bind, Option.bind_eq_some_iff] at h
    obtain ⟨b, hb, rest, hrest, h⟩ := h
    cases h
    exact .cons hb (ih hrest)

theorem getElem?_of_mapM (h : l.mapM read = some l') {i : Nat} {a : α} {b : β} (ha : l[i]? = some a)
    (hb : l'[i]? = some b) : read a = some b := by
  obtain ⟨hi, rfl⟩ := List.getElem?_eq_some_iff.mp ha
  obtain ⟨hi', rfl⟩ := List.getElem?_eq_some_iff.mp hb
  exact (forall₂_of_mapM h).get hi hi'

/-- What holds of all items as they are read, where it is known what it says of a single one. -/
theorem forall_mem_iff_of_mapM {P : β → Prop} {Q : α → Prop} (hread : ∀ a b, read a = some b → (P b ↔ Q a))
    (h : l.mapM read = some l') : (∀ b ∈ l', P b) ↔ ∀ a ∈ l, Q a := by
  have hall := forall₂_of_mapM h
  clear h
  induction hall with
  | nil => simp
  | cons hab _ ih =>
    rw [List.forall_mem_cons, List.forall_mem_cons]
    exact and_congr (hread _ _ hab) ih

end

/-! ### Fields -/

/-- A tree has a value for the field of a record with a given place and name. -/
def Node.Has (place : Nat) (name : String) : Node → Node → Prop
  | .object fields, v => (name, v) ∈ fields
  | .array items, v => items[place]? = some v
  | _, _ => False

theorem mem_iff_of_slot? {fields : List (String × Node)} {name : String} {slot : Option Node} {v : Node}
    (h : Node.slot? fields name = some slot) : (name, v) ∈ fields ↔ slot = some v := by
  have hmem : (name, v) ∈ fields ↔ (name, v) ∈ fields.filter (·.1 == name) := by simp
  rw [hmem]
  unfold Node.slot? at h
  split at h
  · rename_i hnone
    cases h
    simp [hnone]
  · rename_i e hone
    have hname : e.1 = name := by
      have he : e ∈ fields.filter (·.1 == name) := hone ▸ List.mem_singleton_self e
      simpa using (List.mem_filter.mp he).2
    cases h
    rw [hone, List.mem_singleton, Option.some_inj, ← hname]
    exact ⟨fun heq => (congrArg Prod.snd heq).symm, fun heq => heq ▸ rfl⟩
  · cases h

/-- What stands for a field is the value that the tree has for it. -/
theorem Node.has_iff {names : List String} {n : Node} {slots : List (Option Node)} (h : n.slots? names = some slots)
    (place : Nat) {name : String} {slot : Option Node} (hname : names[place]? = some name)
    (hslot : slots[place]? = some slot) (v : Node) : n.Has place name v ↔ slot = some v := by
  cases n with
  | object fields => exact mem_iff_of_slot? (getElem?_of_mapM h hname hslot)
  | array items =>
    rw [Node.slots?] at h
    split at h
    · cases h
      have hitem : slot = items[place]? := by
        rw [List.getElem?_append, List.length_map] at hslot
        split at hslot
        · rename_i hplace
          rw [List.getElem?_map, List.getElem?_eq_getElem hplace] at hslot
          rw [List.getElem?_eq_getElem hplace]
          exact (Option.some.inj hslot).symm
        · rename_i hplace
          rw [List.getElem?_eq_none (Nat.not_lt.mp hplace)]
          exact List.eq_of_mem_replicate (List.mem_of_getElem? hslot)
      rw [hitem, Node.Has]
    · cases h
  | _ => cases h

/-! ### Readers of fields -/

section
variable {slot : Option Node} {s : String}

theorem string?_eq_some_iff {n : Node} : Node.string? n = some s ↔ n = .string s := by
  cases n <;> simp [Node.string?]

theorem required_string?_iff : required Node.string? slot = some s ↔ slot = some (.string s) := by
  cases slot <;> simp [required, string?_eq_some_iff]

theorem defaulted_eq_some_iff {α : Type} {a default : α} {read : Reader α} :
    defaulted default read slot = some a ↔ slot = none ∧ default = a ∨ ∃ n, slot = some n ∧ read n = some a := by
  cases slot <;> simp [defaulted]

/-- A list that may be absent or null is there exactly if an array stands for it, each item of which is read. -/
theorem optional_list?_cases {α : Type} {read : Reader α} {found : Option (List α)}
    (h : optional (Node.list? read) slot = some found) :
    (found = none ∧ ∀ v, slot = some v → v = .null) ∨
      ∃ items l, found = some l ∧ slot = some (.array items) ∧ items.mapM read = some l := by
  cases slot with
  | none =>
    cases h
    exact Or.inl ⟨rfl, nofun⟩
  | some n =>
    cases n with
    | null =>
      cases h
      exact Or.inl ⟨rfl, fun v hv => (Option.some.inj hv).symm⟩
    | array items =>
      obtain ⟨l, hl, rfl⟩ := Option.map_eq_some_iff.mp h
      exact Or.inr ⟨items, l, rfl, rfl, hl⟩
    | _ => cases h

end

end ToolScript.Json
