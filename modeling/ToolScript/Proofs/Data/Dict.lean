import Mathlib.Data.List.Nodup
import ToolScript.Data.Dict

/-! # What a map holds

    A map finds exactly its entries, as no two of them have the same key, and it is determined by what it finds. The
    map of a list finds under each key the last entry of the list, and of one map over another the upper one counts. -/

namespace ToolScript

namespace Dict
variable {α : Type}

/-! ### Keys -/

theorem nodup_keys (d : Dict α) : d.keys.Nodup :=
  List.pairwise_map.mpr (d.sorted.imp fun h => String.ne_of_lt h)

theorem mem_keys_iff {d : Dict α} {k : String} : k ∈ d.keys ↔ d.contains k = true := by
  simp [keys, contains]

/-! ### What is found -/

theorem get?_eq_some_iff {d : Dict α} {k : String} {v : α} : d.get? k = some v ↔ (k, v) ∈ d.entries := by
  simp only [get?, Option.map_eq_some_iff]
  constructor
  · rintro ⟨e, he, rfl⟩
    have hk : e.1 = k := by simpa using List.find?_some he
    rw [← hk]
    exact List.mem_of_find?_eq_some he
  · intro h
    cases hfind : d.entries.find? (·.1 == k) with
    | none => exact absurd (List.find?_eq_none.mp hfind _ h) (by simp)
    | some e =>
      have hk : e.1 = k := by simpa using List.find?_some hfind
      exact ⟨e, rfl, congrArg Prod.snd (List.inj_on_of_nodup_map d.nodup_keys (List.mem_of_find?_eq_some hfind) h hk)⟩

theorem get?_eq_none_iff {d : Dict α} {k : String} : d.get? k = none ↔ ∀ e ∈ d.entries, e.1 ≠ k := by
  simp [get?, List.find?_eq_none]

theorem get?_map {β : Type} (f : String → α → β) (d : Dict α) (k : String) : (d.map f).get? k = (d.get? k).map (f k) := by
  refine Option.ext fun v => ?_
  rw [get?_eq_some_iff, Option.map_eq_some_iff]
  simp [map, get?_eq_some_iff]

theorem keys_map {β : Type} (f : String → α → β) (d : Dict α) : (d.map f).keys = d.keys := by
  rw [keys, map, List.map_map]
  rfl

theorem contains_eq_isSome_get? (d : Dict α) (k : String) : d.contains k = (d.get? k).isSome := by
  rw [contains, get?, Option.isSome_map, Bool.eq_iff_iff, List.any_eq_true, List.find?_isSome]

theorem mem_ofList {es : List (String × α)} {e : String × α} (h : e ∈ (ofList es).entries) : e ∈ es := by
  have hfold : ∀ (es : List (String × α)) (d : Dict α), e ∈ (es.foldl (fun d e => d.insert e.1 e.2) d).entries →
      e ∈ es ∨ e ∈ d.entries := by
    intro es
    induction es with
    | nil => exact fun d h => Or.inr h
    | cons f es ih =>
      intro d h
      rcases ih (d.insert f.1 f.2) h with h | h
      · exact Or.inl (List.mem_cons_of_mem _ h)
      · rcases mem_put h with h | h
        · exact Or.inl (h ▸ List.mem_cons_self)
        · exact Or.inr h
  rcases hfold es empty h with h | h
  · exact h
  · cases h

theorem mem_entries_iff_of_get?_eq {d d' : Dict α} (h : ∀ k, d.get? k = d'.get? k) (e : String × α) :
    e ∈ d.entries ↔ e ∈ d'.entries := by
  rw [← get?_eq_some_iff, ← get?_eq_some_iff, h]

theorem nodup_entries (d : Dict α) : d.entries.Nodup :=
  d.sorted.imp fun {a b} hlt (heq : a = b) => String.lt_irrefl b.1 (heq ▸ hlt)

/-- Two maps that find the same are the same. -/
theorem ext_get? {d d' : Dict α} (h : ∀ k, d.get? k = d'.get? k) : d = d' := by
  have hperm : d.entries.Perm d'.entries :=
    (List.perm_ext_iff_of_nodup d.nodup_entries d'.nodup_entries).mpr (mem_entries_iff_of_get?_eq h)
  have hentries : d.entries = d'.entries :=
    hperm.eq_of_pairwise (fun _ _ _ _ hlt hgt => absurd (String.lt_trans hlt hgt) (String.lt_irrefl _)) d.sorted d'.sorted
  cases d
  cases d'
  cases hentries
  rfl

/-! ### Single entries -/

theorem lt_of_mem_after {d : Dict α} {before after : List (String × α)} {e : String × α}
    (h : d.entries = before ++ e :: after) : ∀ f ∈ after, e.1 < f.1 := by
  have hsorted := d.sorted
  rw [h] at hsorted
  exact (List.pairwise_cons.mp (List.pairwise_append.mp hsorted).2.1).1

/-- A search through the entries finds the one with the least key of those that are looked for. -/
theorem find?_entries_eq_some_iff {d : Dict α} {p : String → Bool} {e : String × α} :
    d.entries.find? (fun e => p e.1) = some e ↔ e ∈ d.entries ∧ p e.1 = true ∧ ∀ f ∈ d.entries, p f.1 = true → e.1 ≤ f.1 := by
  -- No entry before the found one is looked for, and those behind it have greater keys.
  have hleast : ∀ {e}, d.entries.find? (fun e => p e.1) = some e → ∀ f ∈ d.entries, p f.1 = true → e.1 ≤ f.1 := by
    intro e hfind f hf hp
    obtain ⟨-, before, after, hsplit, hbefore⟩ := List.find?_eq_some_iff_append.mp hfind
    rw [hsplit] at hf
    rcases List.mem_append.mp hf with hf | hf
    · exact absurd hp (by simpa using hbefore f hf)
    · rcases List.mem_cons.mp hf with rfl | hf
      · exact String.le_refl _
      · exact Std.le_of_lt (lt_of_mem_after hsplit f hf)
  constructor
  · intro hfind
    exact ⟨List.mem_of_find?_eq_some hfind, by simpa using List.find?_some hfind, hleast hfind⟩
  · rintro ⟨he, hp, hle⟩
    obtain ⟨f, hfind⟩ := Option.isSome_iff_exists.mp
      (List.find?_isSome.mpr ⟨e, he, hp⟩ : (d.entries.find? fun e => p e.1).isSome = true)
    have hf := List.mem_of_find?_eq_some hfind
    have hkey : f.1 = e.1 := String.le_antisymm (hleast hfind e he hp) (hle f hf (by simpa using List.find?_some hfind))
    rw [hfind, List.inj_on_of_nodup_map d.nodup_keys hf he hkey]

/-- Without its key an entry is missing, and nothing else. -/
theorem perm_cons_erase {d : Dict α} {e : String × α} (he : e ∈ d.entries) :
    (e :: (d.erase e.1).entries).Perm d.entries := by
  have hmem : ∀ f, f ∈ (d.erase e.1).entries ↔ f ∈ d.entries ∧ f.1 ≠ e.1 := by simp [erase]
  have hnodup : (e :: (d.erase e.1).entries).Nodup :=
    List.nodup_cons.mpr ⟨fun h => ((hmem e).mp h).2 rfl, (d.erase e.1).nodup_entries⟩
  refine (List.perm_ext_iff_of_nodup hnodup d.nodup_entries).mpr fun f => ?_
  rw [List.mem_cons, hmem]
  constructor
  · rintro (rfl | ⟨hf, -⟩)
    · exact he
    · exact hf
  · intro hf
    refine or_iff_not_imp_left.mpr fun hne => ⟨hf, fun hkey => hne ?_⟩
    exact List.inj_on_of_nodup_map d.nodup_keys hf he hkey

/-! ### The map of a list -/

/-- The last entry of a list under a key. -/
def LastEntry (es : List (String × α)) (k : String) (v : α) : Prop :=
  ∃ before after, es = before ++ (k, v) :: after ∧ ∀ e ∈ after, e.1 ≠ k

theorem lastEntry_cons_iff {e : String × α} {es : List (String × α)} {k : String} {v : α} :
    LastEntry (e :: es) k v ↔ LastEntry es k v ∨ e = (k, v) ∧ ∀ f ∈ es, f.1 ≠ k := by
  constructor
  · rintro ⟨before, after, heq, hlast⟩
    cases before with
    | nil =>
      obtain ⟨rfl, rfl⟩ := List.cons.inj heq
      exact Or.inr ⟨rfl, hlast⟩
    | cons f before =>
      exact Or.inl ⟨before, after, (List.cons.inj heq).2, hlast⟩
  · rintro (⟨before, after, rfl, hlast⟩ | ⟨rfl, hlast⟩)
    · exact ⟨e :: before, after, rfl, hlast⟩
    · exact ⟨[], es, rfl, hlast⟩

theorem LastEntry.mem {es : List (String × α)} {k : String} {v : α} (h : LastEntry es k v) : (k, v) ∈ es := by
  obtain ⟨before, after, rfl, -⟩ := h
  simp

theorem exists_lastEntry {es : List (String × α)} {k : String} (h : ∃ e ∈ es, e.1 = k) : ∃ v, LastEntry es k v := by
  induction es with
  | nil => simp at h
  | cons e es ih =>
    by_cases hlater : ∃ f ∈ es, f.1 = k
    · obtain ⟨v, hv⟩ := ih hlater
      exact ⟨v, lastEntry_cons_iff.mpr (Or.inl hv)⟩
    · simp only [List.mem_cons, exists_eq_or_imp, hlater, or_false] at h
      exact ⟨e.2, lastEntry_cons_iff.mpr (Or.inr ⟨by rw [← h], fun f hf hk => hlater ⟨f, hf, hk⟩⟩)⟩

/-- Entries put into a map one after the other: the last one under a key counts, and else what was there. -/
theorem get?_foldl_insert_iff {es : List (String × α)} {d : Dict α} {k : String} {v : α} :
    (es.foldl (fun d e => d.insert e.1 e.2) d).get? k = some v ↔
      LastEntry es k v ∨ d.get? k = some v ∧ ∀ e ∈ es, e.1 ≠ k := by
  induction es generalizing d with
  | nil =>
    constructor
    · intro h
      exact Or.inr ⟨h, by simp⟩
    · rintro (h | ⟨h, -⟩)
      · cases h.mem
      · exact h
  | cons e es ih =>
    rw [List.foldl_cons, ih, lastEntry_cons_iff, get?_insert, List.forall_mem_cons]
    by_cases hk : e.1 = k
    · simp [hk, Prod.ext_iff]
    · simp [hk, Prod.ext_iff]

theorem get?_ofList_iff {es : List (String × α)} {k : String} {v : α} :
    (ofList es).get? k = some v ↔ LastEntry es k v := by
  rw [ofList, get?_foldl_insert_iff]
  simp

theorem exists_get?_ofList {es : List (String × α)} {k : String} (h : ∃ e ∈ es, e.1 = k) :
    ∃ v, (ofList es).get? k = some v :=
  (exists_lastEntry h).imp fun _ => get?_ofList_iff.mpr

/-- The map of a list is the one that finds the last entries of the list. -/
theorem eq_ofList_iff {es : List (String × α)} {d : Dict α} :
    d = ofList es ↔ ∀ k v, d.get? k = some v ↔ LastEntry es k v := by
  constructor
  · rintro rfl k v
    exact get?_ofList_iff
  · intro h
    refine ext_get? fun k => Option.ext fun v => ?_
    rw [h, get?_ofList_iff]

/-- A map is the map of its entries. -/
theorem ofList_entries (d : Dict α) : ofList d.entries = d := by
  refine (eq_ofList_iff.mpr fun k v => ?_).symm
  rw [get?_eq_some_iff]
  refine ⟨fun h => ?_, LastEntry.mem⟩
  obtain ⟨before, after, heq⟩ := List.append_of_mem h
  refine ⟨before, after, heq, fun e he hk => ?_⟩
  have hlt : k < e.1 := lt_of_mem_after heq e he
  exact String.lt_irrefl k (hk ▸ hlt)

/-- In a list with no key twice every entry is the last one under its key. -/
theorem lastEntry_iff_mem {es : List (String × α)} (h : (es.map (·.1)).Nodup) {k : String} {v : α} :
    LastEntry es k v ↔ (k, v) ∈ es := by
  refine ⟨LastEntry.mem, fun hmem => ?_⟩
  obtain ⟨before, after, hsplit⟩ := List.append_of_mem hmem
  refine ⟨before, after, hsplit, fun f hf hkey => ?_⟩
  rw [hsplit, List.map_append, List.map_cons] at h
  exact (List.nodup_cons.mp h.of_append_right).1 (List.mem_map.mpr ⟨f, hf, hkey⟩)

/-- A list with no key twice is put into a map as it is, but for the order. -/
theorem entries_ofList_perm {es : List (String × α)} (h : (es.map (·.1)).Nodup) : (ofList es).entries.Perm es :=
  (List.perm_ext_iff_of_nodup (nodup_entries _) h.of_map).mpr fun _ =>
    ⟨mem_ofList, fun he => get?_eq_some_iff.mp (get?_ofList_iff.mpr ((lastEntry_iff_mem h).mpr he))⟩

/-- The entries of a map put into another one, in whatever order. -/
theorem get?_foldl_insert_of_perm {es : List (String × α)} {d e : Dict α} (h : es.Perm e.entries) (k : String) :
    (es.foldl (fun d x => d.insert x.1 x.2) d).get? k = (e.get? k).or (d.get? k) := by
  have hnodup : (es.map (·.1)).Nodup := (h.map (fun x : String × α => x.1)).nodup_iff.mpr e.nodup_keys
  have hnone : (∀ x ∈ es, x.1 ≠ k) ↔ e.get? k = none := by
    rw [get?_eq_none_iff]
    exact ⟨fun h' x hx => h' x (h.mem_iff.mpr hx), fun h' x hx => h' x (h.mem_iff.mp hx)⟩
  refine Option.ext fun v => ?_
  rw [get?_foldl_insert_iff, lastEntry_iff_mem hnodup, h.mem_iff, ← get?_eq_some_iff, hnone]
  cases e.get? k <;> simp

/-! ### Keys after an insertion -/

theorem contains_insert (d : Dict α) (k k' : String) (v : α) :
    (d.insert k v).contains k' = (decide (k = k') || d.contains k') := by
  rw [contains_eq_isSome_get?, contains_eq_isSome_get?, get?_insert]
  by_cases hk : k = k' <;> simp [hk]

theorem insert_comm (d : Dict α) {k k' : String} (h : k ≠ k') (v v' : α) :
    (d.insert k v).insert k' v' = (d.insert k' v').insert k v := by
  refine ext_get? fun x => ?_
  simp only [get?_insert]
  by_cases hk : k = x
  · simp [hk, show k' ≠ x from fun hk' => h (hk.trans hk'.symm)]
  · simp [hk]

/-- A new value under an old key. -/
theorem keys_insert_perm_of_contains {d : Dict α} {k : String} (h : d.contains k = true) (v : α) :
    (d.insert k v).keys.Perm d.keys := by
  refine (List.perm_ext_iff_of_nodup (nodup_keys _) d.nodup_keys).mpr fun k' => ?_
  rw [mem_keys_iff, mem_keys_iff, contains_insert, Bool.or_eq_true, decide_eq_true_eq]
  exact ⟨fun h' => h'.elim (fun hk => hk ▸ h) id, Or.inr⟩

theorem keys_insert_perm {d : Dict α} {k : String} (h : d.contains k = false) (v : α) :
    (d.insert k v).keys.Perm (d.keys ++ [k]) := by
  have hk : k ∉ d.keys := by
    rw [mem_keys_iff, h]
    exact Bool.false_ne_true
  have hnodup : (d.keys ++ [k]).Nodup := by
    rw [List.nodup_append_comm]
    exact List.nodup_cons.mpr ⟨hk, d.nodup_keys⟩
  refine (List.perm_ext_iff_of_nodup (nodup_keys _) hnodup).mpr fun k' => ?_
  rw [mem_keys_iff, contains_insert, Bool.or_eq_true, decide_eq_true_eq, List.mem_append, mem_keys_iff, List.mem_singleton,
    or_comm, @eq_comm _ k]

/-! ### One map over another -/

theorem get?_union (d e : Dict α) (k : String) : (d.union e).get? k = (e.get? k).or (d.get? k) :=
  get?_foldl_insert_of_perm (List.Perm.refl _) k

theorem contains_union (d e : Dict α) (k : String) : (d.union e).contains k = (e.contains k || d.contains k) := by
  rw [contains_eq_isSome_get?, contains_eq_isSome_get?, contains_eq_isSome_get?, get?_union, Option.isSome_or]

/-- Of a map that has all keys of another nothing changes when it is put over that. -/
theorem union_eq_right {d e : Dict α} (h : ∀ k, d.contains k = true → e.contains k = true) : d.union e = e := by
  refine ext_get? fun k => ?_
  rw [get?_union]
  cases he : e.get? k with
  | none =>
    have hkey := h k
    rw [contains_eq_isSome_get?, contains_eq_isSome_get?, he] at hkey
    rw [Option.none_or, ← Option.not_isSome_iff_eq_none]
    exact fun hd => Bool.false_ne_true (hkey hd)
  | some v => rfl

end Dict

end ToolScript
