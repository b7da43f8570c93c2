import ToolScript.Proofs.Tool.Arguments

/-! # Arguments with names of their own

    Where no two properties of a schema have one normal form, a parameter has one property to go to, or none. Where also no
    two parameters have one, they go to different places: a property takes its parameter under its own spelling, and what
    has no property stays, so that none is lost and none is put over another. -/

namespace ToolScript
open Text

/-! ### Names of their own -/

section
variable {α : Type} {d : Dict α} {e f : String × α}

/-- No two keys of a map have the same normal form. -/
def Apart (d : Dict α) : Prop :=
  (d.entries.map fun e => normalKey e.1).Nodup

instance (d : Dict α) : Decidable (Apart d) :=
  inferInstanceAs (Decidable (List.Nodup _))

theorem Apart.eq_of_form (h : Apart d) (he : e ∈ d.entries) (hf : f ∈ d.entries) (hform : normalKey e.1 = normalKey f.1) :
    e = f :=
  List.inj_on_of_nodup_map h he hf hform

theorem Apart.firstOfForm (h : Apart d) (he : e ∈ d.entries) : FirstOfForm d e where
  mem := he
  first f hf hform := by
    obtain rfl := h.eq_of_form hf he hform
    exact String.le_refl _

end

namespace Coerce

/-! ### The type of a property -/

/-- A property declares the name of a type, or a list of names of which the first counts that is not null. What is no
    name in such a list is passed over. -/
inductive DeclaresType (property : Value) : String → Prop
  | single {name : String} (h : property.field? "type" = some (.string name)) : DeclaresType property name
  | listed {before after : List Value} {name : String}
      (h : property.field? "type" = some (.array (before ++ .string name :: after))) (hname : name ≠ "null")
      (hbefore : ∀ s, .string s ∈ before → s = "null") : DeclaresType property name

theorem find?_name_eq_some_iff {names : List Value} {name : String} :
    (names.filterMap Value.asString?).find? (· != "null") = some name ↔
      name ≠ "null" ∧ ∃ before after, names = before ++ .string name :: after ∧ ∀ s, .string s ∈ before → s = "null" := by
  rw [List.find?_eq_some_iff_append, bne_iff_ne]
  refine and_congr_right fun hname => ⟨?_, ?_⟩
  · rintro ⟨nulls, rest, hsplit, hnulls⟩
    obtain ⟨first, second, rfl, rfl, hrest⟩ := List.filterMap_eq_append_iff.mp hsplit
    obtain ⟨others, v, after, rfl, hothers, hv, -⟩ := List.filterMap_eq_cons_iff.mp hrest
    obtain rfl : v = .string name := by
      cases v <;> cases hv
      rfl
    refine ⟨first ++ others, after, (List.append_assoc _ _ _).symm, fun s hs => ?_⟩
    rcases List.mem_append.mp hs with hs | hs
    · simpa using hnulls s (List.mem_filterMap.mpr ⟨_, hs, rfl⟩)
    · cases hothers _ hs
  · rintro ⟨before, after, rfl, hbefore⟩
    refine ⟨before.filterMap Value.asString?, after.filterMap Value.asString?, by simp [Value.asString?], fun s hs => ?_⟩
    obtain ⟨v, hv, hs⟩ := List.mem_filterMap.mp hs
    cases v <;> cases hs
    simp [hbefore _ hv]

theorem declaredType?_eq_some_iff {property : Value} {name : String} :
    declaredType? property = some name ↔ DeclaresType property name := by
  rw [declaredType?]
  constructor
  · intro h
    split at h
    · rename_i single htype
      obtain rfl : single = name := Option.some.inj h
      exact .single htype
    · rename_i names htype
      obtain ⟨hname, before, after, rfl, hbefore⟩ := find?_name_eq_some_iff.mp h
      exact .listed htype hname hbefore
    · cases h
  · intro h
    cases h with
    | single htype => rw [htype]
    | listed htype hname hbefore =>
      rw [htype]
      exact find?_name_eq_some_iff.mpr ⟨hname, _, _, rfl, hbefore⟩

/-- A value brought to the type that a property declares; where it declares none, the value as it is. -/
inductive Becomes (property v : Value) : Value → Prop
  | typed {name : String} (h : DeclaresType property name) : Becomes property v (valueTo v name)
  | untyped (h : ∀ name, ¬DeclaresType property name) : Becomes property v v

theorem becomes_iff {property v w : Value} : Becomes property v w ↔ w = brought property v := by
  simp only [brought]
  constructor
  · intro h
    cases h with
    | typed htype => rw [declaredType?_eq_some_iff.mpr htype, Option.elim_some]
    | untyped hnone =>
      rw [Option.eq_none_iff_forall_ne_some.mpr fun name h => hnone name (declaredType?_eq_some_iff.mp h), Option.elim_none]
  · rintro rfl
    cases htype : declaredType? property with
    | none => exact .untyped fun name h => by rw [declaredType?_eq_some_iff.mpr h] at htype; cases htype
    | some name => exact .typed (declaredType?_eq_some_iff.mp htype)

/-! ### Where a parameter goes -/

/-- The properties of a schema; one that lists none has none. -/
def propertiesOf (schema : Value) : Dict Value :=
  ((schema.field? "properties").bind Value.asDict?).getD .empty

/-- What becomes of a parameter: it goes to a property with the same normal form, or stays as it is if there is none. -/
inductive Goes (properties : Dict Value) : String × Value → String × Value → Prop
  | known {name k : String} {v w property : Value} (hproperty : (k, property) ∈ properties.entries)
      (hform : normalKey name = normalKey k) (h : Becomes property v w) : Goes properties (name, v) (k, w)
  | unknown {name : String} {v : Value} (h : ∀ p ∈ properties.entries, normalKey p.1 ≠ normalKey name) :
      Goes properties (name, v) (name, v)

section
variable {properties : Dict Value} {e f : String × Value}

theorem normalKey_parameter (properties : Dict Value) (name : String) (v : Value) :
    normalKey (parameter properties name v).1 = normalKey name := by
  rw [parameter]
  split
  · rfl
  · rename_i k property hproperty
    exact (find?_normalKey_eq_some_iff.mp hproperty).2

theorem goes_iff (h : Apart properties) : Goes properties e f ↔ f = parameter properties e.1 e.2 := by
  constructor
  · rintro (⟨hproperty, hform, hbecomes⟩ | hnone)
    · rw [parameter_of_first (h.firstOfForm hproperty) hform, becomes_iff.mp hbecomes]
    · have hfind : property? properties _ = none := List.find?_eq_none.mpr fun p hp => by simpa using hnone p hp
      rw [parameter, hfind]
  · rintro rfl
    obtain ⟨name, v⟩ := e
    cases hfind : property? properties name with
    | none =>
      have hstays : parameter properties name v = (name, v) := by rw [parameter, hfind]
      rw [hstays]
      exact .unknown fun p hp => by simpa using List.find?_eq_none.mp hfind p hp
    | some found =>
      obtain ⟨k, property⟩ := found
      obtain ⟨hfirst, hform⟩ := find?_normalKey_eq_some_iff.mp hfind
      rw [parameter_of_first hfirst hform.symm]
      exact .known hfirst.mem hform.symm (becomes_iff.mpr rfl)

end

/-! ### All parameters -/

theorem params_eq_ofList (ps : Params) (schema : Value) :
    params ps schema = .ofList (ps.entries.map fun e => parameter (propertiesOf schema) e.1 e.2) := by
  cases hschema : (schema.field? "properties").bind Value.asDict? with
  | some properties => rw [params_eq hschema, propertiesOf, hschema, Option.getD_some]
  | none =>
    have hstays : (fun e : String × Value => parameter .empty e.1 e.2) = id := rfl
    rw [params, hschema, propertiesOf, hschema, Option.getD_none, hstays, List.map_id, Dict.ofList_entries]

/-- Parameters with names of their own all come to stand under different keys. -/
theorem entries_params_perm {ps : Params} (h : Apart ps) (schema : Value) :
    (params ps schema).entries.Perm (ps.entries.map fun e => parameter (propertiesOf schema) e.1 e.2) := by
  rw [params_eq_ofList]
  refine Dict.entries_ofList_perm (List.Nodup.of_map normalKey ?_)
  simp only [List.map_map, Function.comp_def, normalKey_parameter]
  exact h

/-- Where no two properties and no two parameters have one normal form, bringing the parameters to the schema is one to
    one: as many come out as go in, each goes to one place, and to each place there goes one. -/
theorem params_one_to_one {schema : Value} {ps : Params} (hschema : Apart (propertiesOf schema)) (hps : Apart ps) :
    (params ps schema).size = ps.size ∧
      (∀ e ∈ ps.entries, ∃! f, f ∈ (params ps schema).entries ∧ Goes (propertiesOf schema) e f) ∧
      ∀ f ∈ (params ps schema).entries, ∃! e, e ∈ ps.entries ∧ Goes (propertiesOf schema) e f := by
  have hperm := entries_params_perm hps schema
  simp only [goes_iff hschema]
  refine ⟨hperm.length_eq.trans (List.length_map _), fun e he => ?_, fun f hf => ?_⟩
  · exact ⟨_, ⟨hperm.mem_iff.mpr (List.mem_map_of_mem he), rfl⟩, fun f hf => hf.2⟩
  · obtain ⟨e, he, rfl⟩ := List.mem_map.mp (hperm.mem_iff.mp hf)
    refine ⟨e, ⟨he, rfl⟩, fun e' he' => hps.eq_of_form he'.1 he ?_⟩
    rw [← normalKey_parameter (propertiesOf schema) e'.1 e'.2, ← he'.2, normalKey_parameter]

/-- A schema that lets a property be null. -/
def resultsSchema : Value :=
  .object [("properties", .object [("max_results", .object [("type", .array [.string "null", .string "integer"])]),
    ("verbose", typed "boolean")])]

/-- Two parameters of the schema, one of them with another spelling, and one that is none. -/
def resultsParams : Params :=
  .ofList [("MaxResults", .string "3"), ("extra", .string "kept"), ("verbose", .string "1")]

theorem params_one_to_one_maxResults : Apart (propertiesOf resultsSchema) ∧ Apart resultsParams ∧
    (params resultsParams resultsSchema).size = 3 ∧
    ∃! f, f ∈ (params resultsParams resultsSchema).entries ∧ Goes (propertiesOf resultsSchema) ("MaxResults", .string "3") f := by
  have hschema : Apart (propertiesOf resultsSchema) := by decide +kernel
  have hps : Apart resultsParams := by decide +kernel
  have hmem : ("MaxResults", Value.string "3") ∈ resultsParams.entries := List.mem_cons_self
  obtain ⟨hsize, hgoes, -⟩ := params_one_to_one hschema hps
  exact ⟨hschema, hps, hsize, hgoes _ hmem⟩

example : params resultsParams resultsSchema =
    .ofList [("max_results", .int 3), ("extra", .string "kept"), ("verbose", .bool true)] := rfl

end Coerce
end ToolScript
