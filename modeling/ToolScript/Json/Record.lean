import ToolScript.Json.Node

/-! # Records in JSON

    A record with named fields is written as an object or as the array of its fields in their order. An object may
    have other fields, which are passed over, and may not repeat a field of the record; an array has no more items
    than the record has fields. `slots?` gives for every field what stands for it, and the readers of single
    fields say what an absent one means. -/

namespace ToolScript.Json

/-- A way to read one kind of thing from a tree. -/
abbrev Reader (α : Type) := Node → Option α

namespace Node

/-- The last field of an object with a given name, and none where the name is repeated. -/
def slot? (fields : List (String × Node)) (name : String) : Option (Option Node) :=
  match fields.filter (·.1 == name) with
  | [] => some none
  | [e] => some (some e.2)
  | _ => none

/-- What stands for each of the named fields of a record. -/
def slots? (names : List String) : Node → Option (List (Option Node))
  | .object fields => names.mapM (slot? fields)
  | .array items =>
    if items.length ≤ names.length then
      some (items.map some ++ List.replicate (names.length - items.length) none)
    else none
  | _ => none

/-! ### Readers -/

def string? : Reader String
  | .string s => some s
  | _ => none

def bool? : Reader Bool
  | .bool b => some b
  | _ => none

/-- An integer from 0 to below 2^64. -/
def size? : Reader Nat
  | .int n => if 0 ≤ n ∧ n ≤ maxUInt64 then some n.toNat else none
  | _ => none

def list? {α : Type} (read : Reader α) : Reader (List α)
  | .array items => items.mapM read
  | _ => none

/-- An object as a map, the last field of a name counting; every value has to be readable. -/
def dict? {α : Type} (read : Reader α) : Reader (Dict α)
  | .object fields => (fields.mapM fun e : String × Node => (read e.2).map fun a => (e.1, a)).map Dict.ofList
  | _ => none

/-- Null, or something. -/
def nullable? {α : Type} (read : Reader α) : Reader (Option α)
  | .null => some none
  | n => (read n).map some

/-- One of a few names: a string, or an object whose only field has that name and the value null. -/
def name? : Reader String
  | .string s => some s
  | .object [(s, .null)] => some s
  | _ => none

end Node

/-- A record as an object in the order of its fields, without the absent ones. -/
def record (fields : List (String × Option Value)) : Value :=
  .object (fields.filterMap fun e => e.2.map fun v => (e.1, v))

/-! ### Single fields -/

/-- A field that has to be there. -/
def required {α : Type} (read : Reader α) (slot : Option Node) : Option α :=
  slot.bind read

/-- A field that stands for a default where it is absent. -/
def defaulted {α : Type} (default : α) (read : Reader α) : Option Node → Option α
  | none => some default
  | some n => read n

/-- A field that may be absent or null. -/
def optional {α : Type} (read : Reader α) (slot : Option Node) : Option (Option α) :=
  defaulted none (Node.nullable? read) slot

end ToolScript.Json
