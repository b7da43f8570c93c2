import ToolScript.Proofs.Data.Dict
import ToolScript.Tool.Coerce

/-! # Arguments under the names of their schema

    A parameter goes to the first property with its normal form, and of the parameters that go to one property the last
    counts. So a parameter that is spelled as a property stays where it is, and is brought to the type of this property,
    if no other property with the same normal form comes before it and no other parameter behind it. A property that is
    not the first of its normal form gets nothing, not even from a parameter that is spelled as it. -/

namespace ToolScript
open Text

/-! ### Entries of one normal form -/

section
variable {α : Type}

/-- An entry of a map, the first in the order of the keys of those with the same normal form. -/
structure FirstOfForm (d : Dict α) (e : String × α) : Prop where
  mem : e ∈ d.entries
  first : ∀ f ∈ d.entries, normalKey f.1 = normalKey e.1 → e.1 ≤ f.1

/-- An entry of a map, the last in the order of the keys of those with the same normal form. -/
structure LastOfForm (d : Dict α) (e : String × α) : Prop where
  mem : e ∈ d.entries
  last : ∀ f ∈ d.entries, normalKey f.1 = normalKey e.1 → f.1 ≤ e.1

theorem find?_normalKey_eq_some_iff {d : Dict α} {key : String} {e : String × α} :
    d.entries.find? (fun e => normalKey e.1 == key) = some e ↔ FirstOfForm d e ∧ normalKey e.1 = key := by
  rw [Dict.find?_entries_eq_some_iff (p := fun k => normalKey k == key)]
  simp only [beq_iff_eq]
  constructor
  · rintro ⟨he, rfl, hfirst⟩
    exact ⟨⟨he, hfirst⟩, rfl⟩
  · rintro ⟨hfirst, rfl⟩
    exact ⟨hfirst.mem, rfl, hfirst.first⟩

end

namespace Coerce

/-- A value brought to the type that a property declares, if it declares one. -/
def brought (property v : Value) : Value :=
  (declaredType? property).elim v (valueTo v)

/-! ### Where a parameter goes -/

section
variable {properties : Dict Value} {property : Value} {k : String}

theorem parameter_of_first {name : String} {v : Value} (hfirst : FirstOfForm properties (k, property))
    (hname : normalKey name = normalKey k) : parameter properties name v = (k, brought property v) := by
  have hproperty : property? properties name = some (k, property) :=
    find?_normalKey_eq_some_iff.mpr ⟨hfirst, hname.symm⟩
  rw [parameter, hproperty]
  rfl

/-- Only a property that is the first of its normal form gets parameters, and those of that form. -/
theorem of_parameter_eq {name : String} {v : Value} (hk : (k, property) ∈ properties.entries)
    (h : (parameter properties name v).1 = k) : FirstOfForm properties (k, property) ∧ normalKey name = normalKey k := by
  rw [parameter] at h
  split at h
  · rename_i hnone
    have hname : ¬(normalKey k == normalKey name) = true := List.find?_eq_none.mp hnone (k, property) hk
    exact absurd (beq_iff_eq.mpr (congrArg normalKey h.symm)) hname
  · rename_i spelling other hproperty
    obtain rfl : spelling = k := h
    obtain ⟨hfirst, hform⟩ := find?_normalKey_eq_some_iff.mp hproperty
    obtain rfl := congrArg Prod.snd (List.inj_on_of_nodup_map properties.nodup_keys hfirst.mem hk rfl)
    exact ⟨hfirst, hform.symm⟩

end

/-! ### All parameters -/

section
variable {schema : Value} {properties : Dict Value} {ps : Params} {k : String} {property : Value}

theorem params_eq (hschema : (schema.field? "properties").bind Value.asDict? = some properties) (ps : Params) :
    params ps schema = .ofList (ps.entries.map fun e => parameter properties e.1 e.2) := by
  rw [params, hschema]

/-- A property that is the first of its normal form gets the last parameter of that form. -/
theorem get?_params_of_last (hschema : (schema.field? "properties").bind Value.asDict? = some properties)
    (hfirst : FirstOfForm properties (k, property)) {e : String × Value} (hlast : LastOfForm ps e)
    (hform : normalKey e.1 = normalKey k) : (params ps schema).get? k = some (brought property e.2) := by
  obtain ⟨before, after, hsplit⟩ := List.append_of_mem hlast.mem
  rw [params_eq hschema, Dict.get?_ofList_iff]
  refine ⟨before.map fun e => parameter properties e.1 e.2, after.map fun e => parameter properties e.1 e.2, ?_, ?_⟩
  · rw [hsplit, List.map_append, List.map_cons, parameter_of_first hfirst hform]
  · -- What comes behind and goes to the same property would have the same normal form and a greater key.
    intro g hg hk
    obtain ⟨f, hf, rfl⟩ := List.mem_map.mp hg
    have hsame : normalKey f.1 = normalKey e.1 := (of_parameter_eq hfirst.mem hk).2.trans hform.symm
    have hle := hlast.last f (by rw [hsplit]; exact List.mem_append_right _ (List.mem_cons_of_mem _ hf)) hsame
    exact String.not_lt.mpr hle (Dict.lt_of_mem_after hsplit f hf)

/-- A property that is not the first of its normal form gets nothing. -/
theorem get?_params_of_not_first (hschema : (schema.field? "properties").bind Value.asDict? = some properties)
    (hk : (k, property) ∈ properties.entries) (hfirst : ¬FirstOfForm properties (k, property)) (ps : Params) :
    (params ps schema).get? k = none := by
  rw [params_eq hschema, Option.eq_none_iff_forall_ne_some]
  intro v hv
  obtain ⟨e, -, heq⟩ := List.mem_map.mp (Dict.get?_ofList_iff.mp hv).mem
  exact hfirst (of_parameter_eq hk (congrArg Prod.fst heq)).1

/-- Parameters that are all spelled as first properties are brought to their types, each under its key. -/
theorem params_eq_map (hschema : (schema.field? "properties").bind Value.asDict? = some properties)
    (hspelled : ∀ k ∈ ps.keys, ∃ property, FirstOfForm properties (k, property)) :
    params ps schema = ps.map fun k v => (parameter properties k v).2 := by
  have hkey : ∀ e ∈ ps.entries, parameter properties e.1 e.2 = (e.1, (parameter properties e.1 e.2).2) := by
    intro e he
    obtain ⟨property, hfirst⟩ := hspelled e.1 (List.mem_map_of_mem he)
    rw [parameter_of_first hfirst rfl]
  have hmap : ps.entries.map (fun e => parameter properties e.1 e.2) =
      (ps.map fun k v => (parameter properties k v).2).entries := List.map_congr_left hkey
  rw [params_eq hschema, hmap, Dict.ofList_entries]

end

/-- A parameter that is spelled as a property stays under its key and is brought to the type of that property, if the
    property is the first of its normal form and the parameter the last of it. If another property of this form comes
    first, then nothing stays under the key. Parameters that are all spelled as first properties are all kept. -/
theorem params_keep_exact {schema : Value} {properties : Dict Value}
    (hschema : (schema.field? "properties").bind Value.asDict? = some properties) (ps : Params) :
    (∀ k v property, ps.get? k = some v → properties.get? k = some property →
      (FirstOfForm properties (k, property) → LastOfForm ps (k, v) →
        (params ps schema).get? k = some ((declaredType? property).elim v (valueTo v))) ∧
      (¬FirstOfForm properties (k, property) → (params ps schema).get? k = none)) ∧
    ((∀ k ∈ ps.keys, ∃ property, FirstOfForm properties (k, property)) →
      (params ps schema).keys = ps.keys ∧ ∀ k v property, ps.get? k = some v → properties.get? k = some property →
        (params ps schema).get? k = some ((declaredType? property).elim v (valueTo v))) := by
  refine ⟨fun k v property _ hproperty => ⟨fun hfirst hlast => ?_, fun hfirst => ?_⟩, fun hspelled => ?_⟩
  · exact get?_params_of_last hschema hfirst hlast rfl
  · exact get?_params_of_not_first hschema (Dict.get?_eq_some_iff.mp hproperty) hfirst ps
  · rw [params_eq_map hschema hspelled]
    refine ⟨Dict.keys_map _ ps, fun k v property hv hproperty => ?_⟩
    obtain ⟨other, hfirst⟩ := hspelled k (List.mem_map_of_mem (Dict.get?_eq_some_iff.mp hv))
    obtain rfl : other = property := Option.some.inj ((Dict.get?_eq_some_iff.mpr hfirst.mem).symm.trans hproperty)
    rw [Dict.get?_map, hv, Option.map_some, parameter_of_first hfirst rfl]
    rfl

/-! ### A schema with two spellings of one name -/

def typed (name : String) : Value := .object [("type", .string name)]

/-- Properties `limit`, `userId` and `user_id`. -/
def userProperties : Dict Value :=
  .ofList [("limit", typed "integer"), ("userId", typed "string"), ("user_id", typed "integer")]

def userSchema : Value := .object [("properties", .ofDict userProperties)]

def twoLimits : Params := .ofList [("Limit", .string "4"), ("limit", .string "3")]

theorem properties_userSchema : (userSchema.field? "properties").bind Value.asDict? = some userProperties := rfl

theorem params_keep_exact_limit :
    (userSchema.field? "properties").bind Value.asDict? = some userProperties ∧
      FirstOfForm userProperties ("limit", typed "integer") ∧
      LastOfForm twoLimits ("limit", .string "3") ∧ (params twoLimits userSchema).get? "limit" = some (.int 3) := by
  have hentries : userProperties.entries =
      [("limit", typed "integer"), ("userId", typed "string"), ("user_id", typed "integer")] := rfl
  have hfirst : FirstOfForm userProperties ("limit", typed "integer") := by
    refine ⟨hentries ▸ List.mem_cons_self, fun f hf _ => ?_⟩
    rw [hentries] at hf
    simp only [List.mem_cons, List.not_mem_nil, or_false] at hf
    rcases hf with rfl | rfl | rfl <;> decide +kernel
  have hlast : LastOfForm twoLimits ("limit", .string "3") := by
    refine ⟨List.mem_cons_of_mem _ List.mem_cons_self, fun f hf _ => ?_⟩
    rcases List.mem_pair.mp hf with rfl | rfl <;> decide +kernel
  exact ⟨properties_userSchema, hfirst, hlast,
    ((params_keep_exact properties_userSchema twoLimits).1 "limit" (.string "3") (typed "integer") rfl rfl).1 hfirst hlast⟩

/-- A parameter `user_id` is moved to the property `userId`, and a parameter `limit` is overwritten by `limit_`. -/
theorem exact_spelling_lost :
    userProperties.get? "user_id" = some (typed "integer") ∧
      (params (.ofList [("user_id", .string "5")]) userSchema).get? "user_id" = none ∧
      userProperties.get? "limit" = some (typed "integer") ∧
      (params (.ofList [("limit", .string "3"), ("limit_", .string "4")]) userSchema).get? "limit" = some (.int 4) :=
  ⟨rfl, rfl, rfl, rfl⟩

end Coerce

end ToolScript
