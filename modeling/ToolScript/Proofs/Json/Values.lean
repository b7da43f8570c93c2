import ToolScript.Proofs.Json.Fields
import ToolScript.Proofs.Json.Record

/-! # The values that trees have

    Every value of a tree is ordered: its objects list their fields in the order of the keys, each key once. An ordered
    value is the value of its own tree, so these are all the values there are in JSON. A field that may be null is read
    as absent where null was written, and as what was written otherwise. -/

namespace ToolScript

/-- A value whose objects list their fields in the order of the keys, each key once. -/
inductive Value.Ordered : Value → Prop
  | null : Ordered .null
  | bool (b : Bool) : Ordered (.bool b)
  | int (n : Int) : Ordered (.int n)
  | float (x : Binary64) : Ordered (.float x)
  | string (s : String) : Ordered (.string s)
  | array {items : List Value} (each : ∀ v ∈ items, Ordered v) : Ordered (.array items)
  | object {fields : List (String × Value)} (sorted : fields.Pairwise fun a b => a.1 < b.1)
      (each : ∀ e ∈ fields, Ordered e.2) : Ordered (.object fields)

def Value.isNull : Value → Bool
  | .null => true
  | _ => false

theorem Value.isNull_iff {v : Value} : v.isNull = true ↔ v = .null := by
  cases v <;> simp [isNull]

theorem Value.filter_isNull_eq_self {field : Option Value} (h : ∀ v ∈ field, v ≠ .null) :
    field.filter (!·.isNull) = field := by
  cases field with
  | none => rfl
  | some v => simp [Option.filter, Bool.eq_false_iff.mpr (mt isNull_iff.mp (h v rfl))]

namespace Json

/-! ### Values of trees -/

theorem Node.values?_eq_mapM (items : List Node) : values? items = items.mapM value? := by
  induction items with
  | nil => rfl
  | cons n items ih => rw [values?, ih, List.mapM_cons]

theorem Node.fieldValues?_eq_mapM (fields : List (String × Node)) :
    fieldValues? fields = fields.mapM fun e => (value? e.2).map fun v => (e.1, v) := by
  induction fields with
  | nil => rfl
  | cons e fields ih =>
    rw [fieldValues?, ih, List.mapM_cons]
    cases value? e.2 <;> rfl

theorem value?_ofValue {v : Value} (h : v.Ordered) : Node.value? (Node.ofValue v) = some v := by
  induction h with
  | @array items each ih =>
    have hitems : (items.map Node.ofValue).mapM Node.value? = some (items.map id) := mapM_map_eq_some ih
    rw [Node.ofValue, ofValues_eq_map, Node.value?, Node.values?_eq_mapM, hitems, List.map_id, Option.map_some]
  | @object fields sorted each ih =>
    have hfields : (fields.map fun e => (e.1, Node.ofValue e.2)).mapM (fun e => (Node.value? e.2).map fun v => (e.1, v)) =
        some (fields.map id) := mapM_map_eq_some fun e he => by rw [ih e he]; rfl
    rw [Node.ofValue, ofFieldValues_eq_map, Node.value?, Node.fieldValues?_eq_mapM, hfields, List.map_id, Option.map_some,
      Dict.ofList_entries ⟨fields, sorted⟩]
    rfl
  | _ => rfl

mutual

theorem ordered_of_value? {v : Value} : ∀ {n : Node}, n.value? = some v → v.Ordered
  | .null, h => by cases h; exact .null
  | .bool b, h => by cases h; exact .bool b
  | .int n, h => by cases h; exact .int n
  | .float x, h => by cases h; exact .float x
  | .string s, h => by cases h; exact .string s
  | .array items, h => by
    obtain ⟨vs, hvs, rfl⟩ := Option.map_eq_some_iff.mp h
    exact .array (ordered_of_values? hvs)
  | .object fields, h => by
    obtain ⟨es, hes, rfl⟩ := Option.map_eq_some_iff.mp h
    exact .object (Dict.ofList es).sorted fun e he => ordered_of_fieldValues? hes e (Dict.mem_ofList he)

theorem ordered_of_values? : ∀ {items : List Node} {vs : List Value}, Node.values? items = some vs → ∀ v ∈ vs, v.Ordered
  | [], vs, h => by cases h; nofun
  | n :: items, vs, h => by
    obtain ⟨v, hv, h⟩ := Option.bind_eq_some_iff.mp h
    obtain ⟨rest, hrest, h⟩ := Option.bind_eq_some_iff.mp h
    cases h
    exact List.forall_mem_cons.mpr ⟨ordered_of_value? hv, ordered_of_values? hrest⟩

theorem ordered_of_fieldValues? : ∀ {fields : List (String × Node)} {es : List (String × Value)},
    Node.fieldValues? fields = some es → ∀ e ∈ es, e.2.Ordered
  | [], es, h => by cases h; nofun
  | (name, n) :: fields, es, h => by
    obtain ⟨v, hv, h⟩ := Option.bind_eq_some_iff.mp h
    obtain ⟨rest, hrest, h⟩ := Option.bind_eq_some_iff.mp h
    cases h
    exact List.forall_mem_cons.mpr ⟨ordered_of_value? hv, ordered_of_fieldValues? hrest⟩

end

/-- The ordered values are those that trees have. -/
theorem ordered_iff {v : Value} : v.Ordered ↔ ∃ n : Node, n.value? = some v :=
  ⟨fun h => ⟨_, value?_ofValue h⟩, fun ⟨_, h⟩ => ordered_of_value? h⟩

theorem value?_eq_null_iff {n : Node} : n.value? = some .null ↔ n = .null := by
  cases n with
  | object fields => simp [Node.value?, Value.ofDict]
  | _ => simp [Node.value?]

/-! ### Fields that may be null -/

theorem nullable?_of_ne {α : Type} {read : Reader α} {n : Node} (h : n ≠ .null) :
    Node.nullable? read n = (read n).map some := by
  cases n with
  | null => exact absurd rfl h
  | _ => rfl

theorem ofValue_eq_null_iff {v : Value} : Node.ofValue v = .null ↔ v = .null := by
  cases v <;> simp [Node.ofValue]

/-- A field that was written, never as null, or left out. -/
theorem optional_ofValue {α β : Type} {write : α → Value} {read : Reader β} {g : α → β} (hwrite : ∀ a, write a ≠ .null)
    {field : Option α} (h : ∀ a ∈ field, read (Node.ofValue (write a)) = some (g a)) :
    optional read ((field.map write).map Node.ofValue) = some (field.map g) := by
  cases field with
  | none => rfl
  | some a =>
    have hread : Node.nullable? read (Node.ofValue (write a)) = (read (Node.ofValue (write a))).map some :=
      nullable?_of_ne (mt ofValue_eq_null_iff.mp (hwrite a))
    simp [optional, defaulted, hread, h a rfl]

theorem optional_string?_ofValue (field : Option String) :
    optional Node.string? ((field.map Value.string).map Node.ofValue) = some field := by
  rw [optional_ofValue (g := id) nofun fun _ _ => rfl, Option.map_id_fun, id]

/-- A field with any value at all: a null that was written is not told from an absent field. -/
theorem optional_value?_ofValue {field : Option Value} (h : ∀ v ∈ field, v.Ordered) :
    optional Node.value? (field.map Node.ofValue) = some (field.filter (!·.isNull)) := by
  cases field with
  | none => rfl
  | some v =>
    by_cases hv : v = .null
    · subst hv
      rfl
    · have hread : Node.nullable? Node.value? (Node.ofValue v) = (Node.value? (Node.ofValue v)).map some :=
        nullable?_of_ne (mt ofValue_eq_null_iff.mp hv)
      have hkept : (some v).filter (!·.isNull) = some v :=
        Value.filter_isNull_eq_self fun w hw => Option.some.inj hw ▸ hv
      rw [hkept, Option.map_some, optional, defaulted, hread, value?_ofValue (h v rfl), Option.map_some]

theorem of_optional_value? {slot : Option Node} {field : Option Value} (h : optional Node.value? slot = some field) :
    ∀ v ∈ field, v.Ordered ∧ v ≠ .null := by
  rintro v rfl
  rcases defaulted_eq_some_iff.mp h with ⟨-, h⟩ | ⟨n, -, h⟩
  · cases h
  · by_cases hn : n = .null
    · subst hn
      cases h
    · rw [nullable?_of_ne hn, Option.map_eq_some_iff] at h
      obtain ⟨w, hw, hv⟩ := h
      cases hv
      exact ⟨ordered_of_value? hw, fun heq => hn (value?_eq_null_iff.mp (heq ▸ hw))⟩

end Json
end ToolScript
