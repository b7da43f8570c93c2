/-! # Maps from strings

    A finite map with strings as keys, kept as its entries in strictly increasing order of the keys, by code
    point. Two maps with the same values under the same keys are therefore equal. -/

namespace ToolScript

/-- A finite map from strings. -/
structure Dict (α : Type) where
  entries : List (String × α)
  sorted : entries.Pairwise fun a b => a.1 < b.1

namespace Dict
variable {α β : Type}

def empty : Dict α := ⟨[], .nil⟩

instance : Inhabited (Dict α) := ⟨empty⟩
instance : EmptyCollection (Dict α) := ⟨empty⟩

def get? (d : Dict α) (k : String) : Option α :=
  (d.entries.find? (·.1 == k)).map (·.2)

def contains (d : Dict α) (k : String) : Bool :=
  d.entries.any (·.1 == k)

def keys (d : Dict α) : List String :=
  d.entries.map (·.1)

def size (d : Dict α) : Nat :=
  d.entries.length

def isEmpty (d : Dict α) : Bool :=
  d.entries.isEmpty

/-! ### Insertion -/

/-- Puts a value under a key of a sorted list, in place of the one that was there. -/
def put (k : String) (v : α) : List (String × α) → List (String × α)
  | [] => [(k, v)]
  | e :: rest => if k < e.1 then (k, v) :: e :: rest else if k = e.1 then (k, v) :: rest else e :: put k v rest

theorem mem_put {k : String} {v : α} {es : List (String × α)} {e : String × α} (h : e ∈ put k v es) :
    e = (k, v) ∨ e ∈ es := by
  induction es with
  | nil => simpa [put] using h
  | cons f es ih =>
    simp only [put] at h
    split at h
    · simpa using h
    · split at h
      · rcases List.mem_cons.mp h with h | h
        · exact Or.inl h
        · exact Or.inr (List.mem_cons_of_mem _ h)
      · rcases List.mem_cons.mp h with h | h
        · exact Or.inr (h ▸ List.mem_cons_self)
        · exact (ih h).imp_right (List.mem_cons_of_mem _)

theorem put_sorted {k : String} {v : α} {es : List (String × α)} (h : es.Pairwise fun a b => a.1 < b.1) :
    (put k v es).Pairwise fun a b => a.1 < b.1 := by
  induction es with
  | nil => simp [put]
  | cons f es ih =>
    obtain ⟨first, rest⟩ := List.pairwise_cons.mp h
    simp only [put]
    split
    · rename_i lt
      refine List.pairwise_cons.mpr ⟨fun e he => ?_, h⟩
      rcases List.mem_cons.mp he with rfl | he
      · exact lt
      · exact String.lt_trans lt (first e he)
    · split
      · rename_i eq
        exact List.pairwise_cons.mpr ⟨fun e he => eq ▸ first e he, rest⟩
      · rename_i nlt ne
        refine List.pairwise_cons.mpr ⟨fun e he => ?_, ih rest⟩
        rcases mem_put he with rfl | he
        · exact String.not_le.mp fun le => ne (String.le_antisymm le (String.not_lt.mp nlt))
        · exact first e he

def insert (d : Dict α) (k : String) (v : α) : Dict α :=
  ⟨put k v d.entries, put_sorted d.sorted⟩

/-- The map without a key. -/
def erase (d : Dict α) (k : String) : Dict α :=
  ⟨d.entries.filter (·.1 != k), d.sorted.filter _⟩

/-- The map of a list of entries, in which a later entry takes the place of an earlier one. -/
def ofList (es : List (String × α)) : Dict α :=
  es.foldl (fun d e => d.insert e.1 e.2) empty

/-- The first map with the entries of the second put into it. -/
def union (d e : Dict α) : Dict α :=
  e.entries.foldl (fun d x => d.insert x.1 x.2) d

/-- The value under every key changed. -/
def map (f : String → α → β) (d : Dict α) : Dict β :=
  ⟨d.entries.map fun e => (e.1, f e.1 e.2), List.pairwise_map.mpr d.sorted⟩

/-! ### Looking up after a change -/

@[simp] theorem get?_empty (k : String) : (empty : Dict α).get? k = none := rfl

theorem find?_put {k k' : String} {v : α} {es : List (String × α)} :
    (put k v es).find? (·.1 == k') = if k = k' then some (k, v) else es.find? (·.1 == k') := by
  induction es with
  | nil => by_cases h : k = k' <;> simp [put, h]
  | cons e es ih =>
    simp only [put]
    split
    · by_cases h : k = k' <;> simp [List.find?_cons, h]
    · split
      · rename_i eq
        by_cases h : k = k'
        · simp [h]
        · simp [← eq, h]
      · rename_i ne
        rw [List.find?_cons, ih, List.find?_cons]
        by_cases h : k = k'
        · subst h
          rw [beq_eq_false_iff_ne.mpr (Ne.symm ne)]
        · simp only [h, if_false]

theorem get?_insert (d : Dict α) (k k' : String) (v : α) :
    (d.insert k v).get? k' = if k = k' then some v else d.get? k' := by
  simp only [get?, insert, find?_put]
  split <;> rfl

end Dict

end ToolScript
