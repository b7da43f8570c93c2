import ToolScript.Json.Value

/-! # JSON texts as trees

    A text is first read as a tree that keeps the fields of an object in the order written, with repetitions. What
    has the grammar of JSON but means no value (a number beyond the finite range, a string with half a surrogate
    pair, nesting too deep) is a `malformed` node: it may stand where it is passed over, and nowhere else. -/

namespace ToolScript.Json

inductive Node where
  | null
  | bool (b : Bool)
  | int (n : Int)
  | float (x : Binary64)
  | string (s : String)
  | array (items : List Node)
  | object (fields : List (String × Node))
  | malformed

namespace Node

mutual

/-- The value of a tree. Of the fields with one name the last counts. -/
def value? : Node → Option Value
  | .null => some .null
  | .bool b => some (.bool b)
  | .int n => some (.int n)
  | .float x => some (.float x)
  | .string s => some (.string s)
  | .array items => (values? items).map .array
  | .object fields => (fieldValues? fields).map fun fs => .ofDict (.ofList fs)
  | .malformed => none

def values? : List Node → Option (List Value)
  | [] => some []
  | n :: rest => do
    let v ← value? n
    let vs ← values? rest
    return v :: vs

def fieldValues? : List (String × Node) → Option (List (String × Value))
  | [] => some []
  | (name, n) :: rest => do
    let v ← value? n
    let vs ← fieldValues? rest
    return (name, v) :: vs

end

mutual

/-- The tree of a value. -/
def ofValue : Value → Node
  | .null => .null
  | .bool b => .bool b
  | .int n => .int n
  | .float x => .float x
  | .string s => .string s
  | .array items => .array (ofValues items)
  | .object fields => .object (ofFieldValues fields)

def ofValues : List Value → List Node
  | [] => []
  | v :: rest => ofValue v :: ofValues rest

def ofFieldValues : List (String × Value) → List (String × Node)
  | [] => []
  | (name, v) :: rest => (name, ofValue v) :: ofFieldValues rest

end

end Node

end ToolScript.Json
