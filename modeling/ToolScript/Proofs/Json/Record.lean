import ToolScript.Json.Record
import ToolScript.Proofs.Data.Dict
import ToolScript.Proofs.Json.RoundTrip

/-! # Reading records that were written

    Every field of a record that was written is found again under its name, and an absent one is found absent. The
    readers of lists and of maps read what their items were written as. -/

namespace ToolScript.Json

theorem mapM_map_eq_some {α β γ : Type} {f : α → β} {g : α → γ} {read : β → Option γ} {l : List α}
    (h : ∀ a ∈ l, read (f a) = some (g a)) : (l.map f).mapM read = some (l.map g) := by
  induction l with
  | nil => rfl
  | cons a l ih =>
    obtain ⟨ha, hl⟩ := List.forall_mem_cons.mp h
    rw [List.map_cons, List.mapM_cons, ha, Option.bind_eq_bind, Option.bind_some, ih hl]
    rfl

theorem filter_key_eq_singleton {α : Type} {l : List (String × α)} (h : (l.map (·.1)).Nodup) {e : String × α}
    (he : e ∈ l) : l.filter (·.1 == e.1) = [e] := by
  induction l with
  | nil => cases he
  | cons f l ih =>
    obtain ⟨hf, hl⟩ := List.nodup_cons.mp h
    have hother : ∀ g ∈ l, f.1 ≠ g.1 := fun g hg heq => hf (List.mem_map.mpr ⟨g, hg, heq.symm⟩)
    rcases List.mem_cons.mp he with rfl | he
    · have hnil : l.filter (·.1 == e.1) = [] :=
        List.filter_eq_nil_iff.mpr fun g hg => by simpa using (hother g hg).symm
      rw [List.filter_cons_of_pos (by simp), hnil]
    · rw [List.filter_cons_of_neg (by simpa using hother e he), ih hl he]

/-! ### Records -/

theorem ofValue_record (fields : List (String × Option Value)) :
    Node.ofValue (record fields) = .object (fields.filterMap fun e => e.2.map fun v => (e.1, Node.ofValue v)) := by
  rw [record, Node.ofValue, ofFieldValues_eq_map, List.map_filterMap]
  simp [Option.map_map, Function.comp_def]

theorem slot?_record {fields : List (String × Option Value)} (h : (fields.map (·.1)).Nodup)
    {e : String × Option Value} (he : e ∈ fields) :
    Node.slot? (fields.filterMap fun e => e.2.map fun v => (e.1, Node.ofValue v)) e.1 =
      some (e.2.map Node.ofValue) := by
  have hnamed : (fun f : String × Option Value => (f.2.map fun v => (f.1, Node.ofValue v)).filter (·.1 == e.1)) =
      fun f => if (f.1 == e.1) = true then f.2.map fun v => (f.1, Node.ofValue v) else none := by
    funext f
    rcases f with ⟨name, _ | v⟩
    · simp
    · simp [Option.filter_some]
  rw [Node.slot?, List.filter_filterMap, hnamed, ← List.filterMap_filter, filter_key_eq_singleton h he]
  rcases e with ⟨name, _ | v⟩ <;> rfl

/-- The fields of a record, of different names, are found as they were written. -/
theorem slots?_record {fields : List (String × Option Value)} (h : (fields.map (·.1)).Nodup) :
    (Node.ofValue (record fields)).slots? (fields.map (·.1)) = some (fields.map fun e => e.2.map Node.ofValue) := by
  rw [ofValue_record, Node.slots?]
  exact mapM_map_eq_some fun e he => slot?_record h he

theorem Legible.record {d : Nat} {fields : List (String × Option Value)}
    (h : ∀ e ∈ fields, ∀ v, e.2 = some v → Legible d v) : Legible (d + 1) (record fields) := by
  refine .object fun e he => ?_
  obtain ⟨f, hf, hmap⟩ := List.mem_filterMap.mp he
  obtain ⟨v, hv, rfl⟩ := Option.map_eq_some_iff.mp hmap
  exact h f hf v hv

/-! ### Readers -/

theorem size?_ofNat {n : Nat} (h : (n : Int) ≤ maxUInt64) : Node.size? (.int n) = some n := by
  simp [Node.size?, h]

theorem le_of_size? {n : Node} {k : Nat} (h : Node.size? n = some k) : (k : Int) ≤ maxUInt64 := by
  unfold Node.size? at h
  split at h
  · split at h
    · rename_i hrange
      cases h
      rw [Int.toNat_of_nonneg hrange.1]
      exact hrange.2
    · cases h
  · cases h

theorem list?_array_map {α β : Type} {write : α → Value} {read : Reader β} {g : α → β} {l : List α}
    (h : ∀ a ∈ l, read (Node.ofValue (write a)) = some (g a)) :
    Node.list? read (Node.ofValue (.array (l.map write))) = some (l.map g) := by
  rw [Node.ofValue, ofValues_eq_map, List.map_map, Node.list?]
  exact mapM_map_eq_some h

theorem list?_array {α : Type} {write : α → Value} {read : Reader α} {l : List α}
    (h : ∀ a ∈ l, read (Node.ofValue (write a)) = some a) : Node.list? read (Node.ofValue (.array (l.map write))) = some l :=
  (list?_array_map h).trans (congrArg some l.map_id)

theorem dict?_ofDict {α : Type} {write : α → Value} {read : Reader α} (h : ∀ a, read (Node.ofValue (write a)) = some a)
    (d : Dict α) : Node.dict? read (Node.ofValue (.ofDict (d.map fun _ => write))) = some d := by
  have hentries : ((d.entries.map fun e => (e.1, Node.ofValue (write e.2))).mapM fun e =>
      (read e.2).map fun a => (e.1, a)) = some (d.entries.map id) := mapM_map_eq_some fun e _ => by rw [h]; rfl
  rw [List.map_id] at hentries
  rw [Value.ofDict, Dict.map, Node.ofValue, ofFieldValues_eq_map, List.map_map, Node.dict?]
  exact (congrArg (Option.map Dict.ofList) hentries).trans (congrArg some d.ofList_entries)

end ToolScript.Json
