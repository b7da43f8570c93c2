import ToolScript.Proofs.Data.Dict
import ToolScript.Script.Scope

/-! # What a scope keeps

    A scope is determined by what was bound in it. It has the first names of its history, as many as the limits allow,
    and under each the value that was bound last, cut to the limits. Each binding keeps this (`Kept.bind`). -/

namespace ToolScript.Script

/-! ### Histories -/

/-- The scope after values are bound one after the other. -/
def Scope.bindAll (s : Scope) (history : List (String × Value)) : Scope :=
  history.foldl (fun s b => (s.bind b.1 b.2).2) s

/-- The names that are bound, in the order in which they first occur. Further names find no room. -/
def boundNames (limits : ScopeLimits) (history : List (String × Value)) : List String :=
  (history.map (·.1)).eraseDups.take limits.maxVariables

theorem bindAll_append (s : Scope) (history more : List (String × Value)) :
    s.bindAll (history ++ more) = (s.bindAll history).bindAll more :=
  List.foldl_append

theorem eraseDups_snoc (names : List String) (name : String) :
    (names ++ [name]).eraseDups = if name ∈ names then names.eraseDups else names.eraseDups ++ [name] := by
  rw [List.eraseDups_append]
  split
  · simp_all [List.removeAll]
  · simp_all [List.removeAll, List.eraseDups_cons]

section
variable {limits : ScopeLimits} {history : List (String × Value)} {name : String} {v : Value}

theorem length_boundNames_le (limits : ScopeLimits) (history : List (String × Value)) :
    (boundNames limits history).length ≤ limits.maxVariables :=
  List.length_take_le _ _

theorem mem_of_mem_boundNames (h : name ∈ boundNames limits history) : name ∈ history.map (·.1) :=
  List.mem_eraseDups.mp (List.mem_of_mem_take h)

/-- A name that occurs again changes nothing. -/
theorem boundNames_of_mem (h : name ∈ history.map (·.1)) : boundNames limits (history ++ [(name, v)]) = boundNames limits history := by
  rw [boundNames, List.map_append, List.map_singleton, eraseDups_snoc, if_pos h, boundNames]

/-- Without room a new name changes nothing either. -/
theorem boundNames_of_full (h : limits.maxVariables ≤ (boundNames limits history).length) :
    boundNames limits (history ++ [(name, v)]) = boundNames limits history := by
  rw [boundNames, List.length_take] at h
  rw [boundNames, List.map_append, List.map_singleton, eraseDups_snoc]
  split
  · rfl
  · rw [List.take_append_of_le_length (by omega), boundNames]

/-- A name with a place keeps it. -/
theorem mem_boundNames_append (h : name ∈ boundNames limits history) (more : List (String × Value)) :
    name ∈ boundNames limits (history ++ more) := by
  rw [boundNames, List.map_append, List.eraseDups_append, List.take_append]
  exact List.mem_append_left _ h

theorem boundNames_of_room (hname : name ∉ boundNames limits history) (h : (boundNames limits history).length < limits.maxVariables) :
    boundNames limits (history ++ [(name, v)]) = boundNames limits history ++ [name] := by
  have hall : boundNames limits history = (history.map (·.1)).eraseDups := by
    rw [boundNames, List.length_take] at h
    rw [boundNames, List.take_of_length_le (by omega)]
  rw [hall, List.mem_eraseDups] at hname
  rw [hall] at h ⊢
  rw [boundNames, List.map_append, List.map_singleton, eraseDups_snoc, if_neg hname, List.take_of_length_le]
  rw [List.length_append, List.length_singleton]
  exact h

theorem lastEntry_snoc_iff {k : String} {w : Value} : Dict.LastEntry (history ++ [(name, v)]) k w ↔
    if name = k then w = v else Dict.LastEntry history k w := by
  rw [← Dict.get?_ofList_iff, ← Dict.get?_ofList_iff, Dict.ofList, List.foldl_append]
  show (Dict.insert _ name v).get? k = _ ↔ _
  rw [Dict.get?_insert]
  split
  · simp [eq_comm]
  · rfl

end

/-! ### What each binding keeps -/

namespace Scope
variable {s : Scope} {name : String} {v : Value}

theorem bind_of_full (hfull : s.hasRoom name = false) : (s.bind name v).2 = s := by
  simp [bind, hfull]

theorem vars_bind_of_room (hroom : s.hasRoom name = true) : (s.bind name v).2.vars = s.vars.insert name (s.limits.clamp v) := by
  simp [bind, hroom]

theorem limits_bind : (s.bind name v).2.limits = s.limits := by
  cases hroom : s.hasRoom name <;> simp [bind, hroom]

theorem get?_bind {k : String} : (s.bind name v).2.get? k =
    if name = k ∧ s.hasRoom name = true then some (s.limits.clamp v) else s.get? k := by
  cases hroom : s.hasRoom name with
  | true => simp [get?, vars_bind_of_room hroom, Dict.get?_insert]
  | false => simp [bind_of_full hroom]

end Scope

/-- A scope has the names and the values of a history. -/
structure Kept (limits : ScopeLimits) (history : List (String × Value)) (s : Scope) : Prop where
  limits_eq : s.limits = limits
  names : s.vars.keys.Perm (boundNames limits history)
  values : ∀ name v, s.get? name = some v ↔
    name ∈ boundNames limits history ∧ ∃ w, Dict.LastEntry history name w ∧ v = limits.clamp w

theorem kept_new (limits : ScopeLimits) : Kept limits [] (.new limits) := by
  refine ⟨rfl, ?_, fun name v => ?_⟩
  · simp [boundNames, Scope.new, Dict.keys, Dict.empty]
  · simp [boundNames, Scope.new, Scope.get?]

namespace Kept
variable {limits : ScopeLimits} {history : List (String × Value)} {s : Scope} {name : String} {v : Value}

theorem contains_iff (h : Kept limits history s) : s.vars.contains name = true ↔ name ∈ boundNames limits history := by
  rw [← Dict.mem_keys_iff, h.names.mem_iff]

theorem size_eq (h : Kept limits history s) : s.vars.size = (boundNames limits history).length := by
  rw [← h.names.length_eq, Dict.keys, List.length_map, Dict.size]

theorem contains_eq_false_of_full (hfull : s.hasRoom name = false) : s.vars.contains name = false :=
  (Bool.or_eq_false_iff.mp hfull).1

theorem names_bind (h : Kept limits history s) (name : String) (v : Value) :
    (s.bind name v).2.vars.keys.Perm (boundNames limits (history ++ [(name, v)])) := by
  cases hroom : s.hasRoom name with
  | true =>
    rw [Scope.vars_bind_of_room hroom]
    cases hold : s.vars.contains name with
    | true =>
      rw [boundNames_of_mem (mem_of_mem_boundNames (h.contains_iff.mp hold))]
      exact (Dict.keys_insert_perm_of_contains hold _).trans h.names
    | false =>
      have hlt : (boundNames limits history).length < limits.maxVariables := by
        simpa [Scope.hasRoom, hold, h.size_eq, h.limits_eq] using hroom
      have hnew : name ∉ boundNames limits history := fun hmem => by
        rw [h.contains_iff.mpr hmem] at hold
        cases hold
      rw [boundNames_of_room hnew hlt]
      exact (Dict.keys_insert_perm hold _).trans (h.names.append_right _)
  | false =>
    have hfull : limits.maxVariables ≤ (boundNames limits history).length := by
      simpa [Scope.hasRoom, contains_eq_false_of_full hroom, h.size_eq, h.limits_eq] using hroom
    rw [Scope.bind_of_full hroom, boundNames_of_full hfull]
    exact h.names

theorem bind (h : Kept limits history s) (name : String) (v : Value) :
    Kept limits (history ++ [(name, v)]) (s.bind name v).2 where
  limits_eq := by rw [Scope.limits_bind, h.limits_eq]
  names := h.names_bind name v
  values k x := by
    have hmem : k ∈ boundNames limits (history ++ [(name, v)]) ↔ ((s.bind name v).2.get? k).isSome = true := by
      rw [← (h.names_bind name v).mem_iff, Dict.mem_keys_iff, Dict.contains_eq_isSome_get?, Scope.get?]
    simp only [hmem, lastEntry_snoc_iff, Scope.get?_bind, h.limits_eq]
    by_cases hk : name = k
    · subst hk
      cases hroom : s.hasRoom name with
      | true => simp [eq_comm]
      | false =>
        have hnone : s.get? name = none := by
          simpa [Dict.contains_eq_isSome_get?, Scope.get?] using contains_eq_false_of_full hroom
        simp [hnone]
    · have hold : (s.get? k).isSome = true ↔ k ∈ boundNames limits history := by
        rw [Scope.get?, ← Dict.contains_eq_isSome_get?, h.contains_iff]
      simp [hk, hold, h.values k x]

theorem bindAll (h : Kept limits history s) (more : List (String × Value)) : Kept limits (history ++ more) (s.bindAll more) := by
  induction more generalizing history s with
  | nil =>
    rw [List.append_nil]
    exact h
  | cons b more ih =>
    have := ih (h.bind b.1 b.2)
    rwa [List.append_assoc] at this

end Kept

/-! ### Strings within the limits -/

/-- A string is the beginning of another, perhaps with the mark of a cut. -/
structure CutTo (limits : ScopeLimits) (original s : String) : Prop where
  length_le : s.length ≤ limits.maxStringLength + truncationMark.length
  starts : original.toList.take limits.maxStringLength <+: s.toList
  whole : original.length ≤ limits.maxStringLength → s = original

section
variable {limits : ScopeLimits}

theorem clamp_of_le {s : String} (h : s.length ≤ limits.maxStringLength) : limits.clamp (.string s) = .string s := by
  rw [ScopeLimits.clamp, if_neg (Nat.not_lt.mpr h)]

theorem clamp_of_lt {s : String} (h : limits.maxStringLength < s.length) :
    limits.clamp (.string s) = .string (String.ofList (s.toList.take limits.maxStringLength) ++ truncationMark) := by
  rw [ScopeLimits.clamp, if_pos h]

theorem cutTo_of_clamp {v : Value} {s : String} (h : limits.clamp v = .string s) :
    ∃ original, v = .string original ∧ CutTo limits original s := by
  cases v with
  | string original =>
    refine ⟨original, rfl, ?_⟩
    by_cases hle : original.length ≤ limits.maxStringLength
    · rw [clamp_of_le hle] at h
      cases h
      exact ⟨by omega, List.take_prefix _ _, fun _ => rfl⟩
    · have hlt : limits.maxStringLength < original.length := by omega
      rw [clamp_of_lt hlt] at h
      cases h
      refine ⟨?_, by simp, fun hle' => absurd hle' hle⟩
      rw [String.length_append, String.length_ofList, List.length_take]
      omega
  | _ => cases h

/-- A string that was cut is longer than the limit, and is cut to the same again. -/
theorem clamp_clamp (v : Value) : limits.clamp (limits.clamp v) = limits.clamp v := by
  cases v with
  | string s =>
    by_cases hle : s.length ≤ limits.maxStringLength
    · rw [clamp_of_le hle, clamp_of_le hle]
    · have hlt : limits.maxStringLength < s.length := by omega
      have hlength : (s.toList.take limits.maxStringLength).length = limits.maxStringLength := by
        rw [List.length_take, String.length_toList]
        omega
      rw [clamp_of_lt hlt, clamp_of_lt, String.toList_append, String.toList_ofList, List.take_left' hlength]
      rw [String.length_append, String.length_ofList, hlength]
      exact Nat.lt_add_of_pos_right (by decide)
  | _ => rfl

end

/-! ### Every history -/

/-- Whatever was bound, a scope has the first names, as many as its limits allow, and never loses one; under each it has
    the value bound last, cut to the limits. A binding answers the value so cut, also where there is no room for it, and
    an answer that is bound again stays as it is. -/
theorem scope_of_history (limits : ScopeLimits) (history : List (String × Value)) :
    let s := (Scope.new limits).bindAll history
    Kept limits history s ∧ s.vars.size ≤ limits.maxVariables ∧
      (∀ more name, s.vars.contains name = true → (s.bindAll more).vars.contains name = true) ∧
      (∀ name v, (s.bind name v).1 = limits.clamp v) ∧
      (∀ name t, s.get? name = some (.string t) →
        ∃ original, Dict.LastEntry history name (.string original) ∧ CutTo limits original t) ∧
      (∀ name v t, (s.bind name v).1 = .string t → ∃ original, v = .string original ∧ CutTo limits original t) ∧
      ∀ name other v, s.vars.contains name = true → let answer := (s.bind other v).1
        (s.bind name answer).1 = answer ∧ (s.bind name answer).2.get? name = some answer := by
  intro s
  have hkept : Kept limits history s := (kept_new limits).bindAll history
  have hanswer : ∀ name v, (s.bind name v).1 = limits.clamp v := fun name v => by rw [Scope.bind, hkept.limits_eq]
  refine ⟨hkept, ?_, fun more name hname => ?_, hanswer, fun name t ht => ?_, fun name v t ht => ?_,
    fun name other v hname => ?_⟩
  · rw [hkept.size_eq]
    exact length_boundNames_le limits history
  · rw [(hkept.bindAll more).contains_iff]
    exact mem_boundNames_append (hkept.contains_iff.mp hname) more
  · obtain ⟨-, w, hw, hclamp⟩ := (hkept.values name _).mp ht
    obtain ⟨original, rfl, hcut⟩ := cutTo_of_clamp hclamp.symm
    exact ⟨original, hw, hcut⟩
  · rw [hanswer] at ht
    exact cutTo_of_clamp ht
  · have hroom : s.hasRoom name = true := by rw [Scope.hasRoom, hname, Bool.true_or]
    simp only [hanswer, Scope.get?_bind, hkept.limits_eq, clamp_clamp, hroom, and_self, if_true]

end ToolScript.Script
