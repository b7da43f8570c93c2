import ToolScript.Proofs.Data.Dict
import ToolScript.Proofs.Text.NormalKey
import ToolScript.Tool.Catalog

/-! # What a catalog's registry finds

    Under a normal form a registry has the last entry whose name has that normal form. Another spelling is never a
    normal form, and has the first entry with exactly that name. The registry of a catalog has the offered tools after
    all others, so what a normal form finds of a tool that a manifest names is what a plugin offers. -/

namespace ToolScript
open Text

/-! ### Registering -/

namespace Registry
variable {α : Type}

theorem get?_register (r : Registry α) (name : String) (a : α) {key : String} (hkey : normalKey key = key) :
    (r.register name a).get? key = if normalKey name = key then some a else r.get? key := by
  have hname : normalKey name ≠ key → name ≠ key := by
    rintro hne rfl
    exact hne hkey
  simp only [register, get?, Dict.get?_insert]
  split
  · rfl
  · rename_i hne
    split
    · rfl
    · rw [insertNew]
      split
      · rfl
      · rw [Dict.get?_insert, if_neg (hname hne)]

/-- What lists plugins only changes nothing of what is found. -/
theorem foldl_tools {β : Type} {f : Registry α → β → Registry α} (hf : ∀ r b, (f r b).tools = r.tools) (bs : List β)
    (r : Registry α) : (bs.foldl f r).tools = r.tools := by
  induction bs generalizing r with
  | nil => rfl
  | cons b bs ih => rw [List.foldl_cons, ih, hf]

/-- Under a normal form stands the last entry whose name has it. -/
theorem get?_registerAll (r : Registry α) (es : List (String × α)) {key : String} (hkey : normalKey key = key) :
    (r.registerAll es).get? key = ((es.reverse.find? fun e => normalKey e.1 == key).map (·.2)).or (r.get? key) := by
  induction es generalizing r with
  | nil => rfl
  | cons e es ih =>
    rw [registerAll, List.foldl_cons, ← registerAll, ih, get?_register r e.1 e.2 hkey, List.reverse_cons,
      List.find?_append, Option.map_or, Option.or_assoc]
    by_cases h : normalKey e.1 = key <;> simp [h]

theorem get?_insertNew (d : Dict α) (k k' : String) (a : α) :
    (insertNew d k a).get? k' = (d.get? k').or (if k = k' then some a else none) := by
  rw [insertNew, Dict.contains_eq_isSome_get?]
  by_cases hk : k = k'
  · subst hk
    cases hv : d.get? k with
    | none => simp [Dict.get?_insert]
    | some v => simp [hv]
  · split
    · simp
    · simp [Dict.get?_insert, hk]

/-- Under a spelling that is no normal form a registration changes nothing but to fill it. -/
theorem get?_register_spelling (r : Registry α) (name : String) (a : α) {key : String} (hkey : normalKey key ≠ key) :
    (r.register name a).get? key = (r.get? key).or (if name = key then some a else none) := by
  have hnormal : normalKey name ≠ key := by
    rintro rfl
    exact hkey (normalKey_normalKey name)
  simp only [register, get?, Dict.get?_insert, if_neg hnormal]
  split
  · rename_i heq
    rw [if_neg (heq ▸ hnormal), Option.or_none]
  · exact get?_insertNew _ _ _ _

/-- Under a spelling that is no normal form stands the first entry with exactly this name. -/
theorem get?_registerAll_spelling (r : Registry α) (es : List (String × α)) {key : String} (hkey : normalKey key ≠ key) :
    (r.registerAll es).get? key = (r.get? key).or ((es.find? fun e => e.1 == key).map (·.2)) := by
  induction es generalizing r with
  | nil => exact (Option.or_none).symm
  | cons e es ih =>
    rw [registerAll, List.foldl_cons, ← registerAll, ih, get?_register_spelling r e.1 e.2 hkey, Option.or_assoc]
    by_cases h : e.1 = key
    · rw [List.find?_cons_of_pos (by simpa using h), if_pos h, Option.some_or]
      rfl
    · rw [List.find?_cons_of_neg (by simpa using h), if_neg h, Option.none_or]

end Registry

/-! ### Catalogs -/

namespace Catalog
variable {ε : Type}

theorem listPlugin_tools (tools : Dict (Handle ε)) (r : Registry (Handle ε)) (m : Manifest) :
    (listPlugin tools r m).tools = r.tools :=
  Registry.foldl_tools (f := fun r (o : Offer ε) => r.addToCategory m.name o.command.id) (fun _ _ => rfl) _ _

theorem registry_get? (c : Catalog ε) (key : String) :
    c.registry.get? key = (Registry.empty.registerAll c.entries).get? key :=
  congrArg (Dict.get? · key) (Registry.foldl_tools (fun r m => listPlugin_tools c.byName r m) _ _)

/-- Under a spelling that is no normal form the tool of that name comes before all that is offered. -/
theorem registry_get?_spelling (c : Catalog ε) {key : String} (hkey : normalKey key ≠ key) :
    c.registry.get? key =
      (c.byName.get? key).or (((c.offers.flatMap Offer.entries).find? fun e => e.1 == key).map (·.2)) := by
  rw [registry_get?, Registry.get?_registerAll_spelling _ _ hkey, entries, List.find?_append, Option.map_or]
  exact Option.none_or

/-! ### Tools of plugins -/

theorem of_mem_byName {c : Catalog ε} {name : String} {t : Handle ε} (h : (name, t) ∈ c.byName.entries) :
    t ∈ c.tools ∧ t.metadata.name = name := by
  obtain ⟨t', ht', heq⟩ := List.mem_map.mp (Dict.mem_ofList h)
  cases heq
  exact ⟨ht', rfl⟩

theorem exists_byName {c : Catalog ε} {t : Handle ε} (h : t ∈ c.tools) :
    ∃ t', c.byName.get? t.metadata.name = some t' :=
  Dict.exists_get?_ofList ⟨_, List.mem_map_of_mem (f := fun t : Handle ε => (t.metadata.name, t)) h, rfl⟩

theorem hasTool_iff {c : Catalog ε} {name : String} : c.hasTool name = true ↔ ∃ t, c.byName.get? name = some t := by
  simp only [hasTool, List.any_eq_true, beq_iff_eq]
  constructor
  · rintro ⟨t, ht, rfl⟩
    exact exists_byName ht
  · rintro ⟨t, ht⟩
    exact ⟨t, of_mem_byName (Dict.get?_eq_some_iff.mp ht)⟩

theorem mem_offers {c : Catalog ε} {o : Offer ε} : o ∈ c.offers ↔
    o.plugin ∈ c.manifests ∧ o.command ∈ o.plugin.commands ∧ c.byName.get? o.command.id = some o.handle := by
  simp only [offers, offersOf, sortedManifests, List.mem_flatMap, List.mem_mergeSort, List.mem_filterMap,
    Option.map_eq_some_iff]
  constructor
  · rintro ⟨m, hm, command, hcommand, h, hh, rfl⟩
    exact ⟨hm, hcommand, hh⟩
  · rintro ⟨hm, hcommand, hh⟩
    exact ⟨o.plugin, hm, o.command, hcommand, o.handle, hh, rfl⟩

theorem completed_name (m : Metadata) (plugin : Manifest) (command : Command) :
    (completed m plugin command).name = m.name := by
  rw [completed]
  split <;> split <;> rfl

theorem completed_plugin (m : Metadata) (plugin : Manifest) (command : Command) :
    (completed m plugin command).plugin = some plugin.name ∧
      (completed m plugin command).category = some plugin.category := by
  rw [completed]
  split <;> split <;> exact ⟨rfl, rfl⟩

theorem mem_entries_of_mem_offers {c : Catalog ε} {o : Offer ε} (h : o ∈ c.offers) :
    (o.plugin.name ++ "." ++ o.command.id, o.completed) ∈ c.entries :=
  List.mem_append_right _ (List.mem_flatMap.mpr ⟨o, h, List.mem_cons_of_mem _ (List.mem_singleton_self _)⟩)

/-- A name that is registered is a tool's, or it is that of an offer with the plugin before it. -/
theorem mem_entries_cases {c : Catalog ε} {e : String × Handle ε} (h : e ∈ c.entries) :
    (∃ t, c.byName.get? e.1 = some t) ∨
      ∃ o ∈ c.offers, e = (o.plugin.name ++ "." ++ o.command.id, o.completed) := by
  rcases List.mem_append.mp h with he | he
  · exact Or.inl ⟨_, Dict.get?_eq_some_iff.mpr he⟩
  · obtain ⟨o, ho, he⟩ := List.mem_flatMap.mp he
    rcases List.mem_pair.mp he with rfl | rfl
    · exact Or.inl ⟨_, (mem_offers.mp ho).2.2⟩
    · exact Or.inr ⟨o, ho, rfl⟩

theorem exists_offer_of_mem_entries {c : Catalog ε} {e : String × Handle ε} (h : e ∈ c.offers.flatMap Offer.entries) :
    ∃ o ∈ c.offers, e.2 = o.completed := by
  obtain ⟨o, ho, he⟩ := List.mem_flatMap.mp h
  refine ⟨o, ho, ?_⟩
  rcases List.mem_cons.mp he with rfl | he
  · rfl
  · rw [List.mem_singleton.mp he]

/-- What a normal form finds is offered by a plugin, or is a tool that no offer is registered in place of. -/
theorem registry_get?_cases {c : Catalog ε} {key : String} (hkey : normalKey key = key) {h : Handle ε}
    (found : c.registry.get? key = some h) :
    (∃ o ∈ c.offers, h = o.completed) ∨
      c.byName.get? h.metadata.name = some h ∧ ∀ o ∈ c.offers, o.command.id ≠ h.metadata.name := by
  rw [registry_get?, Registry.get?_registerAll _ _ hkey, entries, List.reverse_append, List.find?_append] at found
  cases hoffers : (c.offers.flatMap Offer.entries).reverse.find? fun e => normalKey e.1 == key with
  | some e =>
    left
    rw [hoffers] at found
    obtain ⟨o, ho, he⟩ := exists_offer_of_mem_entries (List.mem_reverse.mp (List.mem_of_find?_eq_some hoffers))
    exact ⟨o, ho, (Option.some.inj found).symm.trans he⟩
  | none =>
    right
    have hempty : Registry.empty.get? key = (none : Option (Handle ε)) := rfl
    rw [hoffers, Option.none_or, hempty, Option.or_none] at found
    obtain ⟨e, hfind, rfl⟩ := Option.map_eq_some_iff.mp found
    have hmem := List.mem_reverse.mp (List.mem_of_find?_eq_some hfind)
    have hname := (of_mem_byName hmem).2
    have hnormal : normalKey e.1 = key := by simpa using List.find?_some hfind
    rw [hname]
    refine ⟨Dict.get?_eq_some_iff.mpr hmem, fun o ho hid => ?_⟩
    -- The offer would be registered under the same normal form, and after the tool.
    have hentry : (o.command.id, o.completed) ∈ (c.offers.flatMap Offer.entries).reverse :=
      List.mem_reverse.mpr (List.mem_flatMap.mpr ⟨o, ho, List.mem_cons_self⟩)
    exact List.find?_eq_none.mp hoffers _ hentry (by simp [hid, hnormal])

end Catalog

end ToolScript
