import ToolScript.Data.Dict
import ToolScript.Number.Binary64

/-! # JSON values

    The values that tools take and give. An integer and a floating-point number are different values even where
    they are equal as numbers. The fields of an object are listed in the order of their keys, each key once;
    `Value.ofDict` and `Value.asDict?` pass between objects and maps. -/

namespace ToolScript

inductive Value where
  | null
  | bool (b : Bool)
  | int (n : Int)
  | float (x : Binary64)
  | string (s : String)
  | array (items : List Value)
  | object (fields : List (String × Value))

namespace Value

instance : Inhabited Value := ⟨.null⟩

def ofDict (d : Dict Value) : Value :=
  .object d.entries

def asDict? : Value → Option (Dict Value)
  | .object fields => some (.ofList fields)
  | _ => none

def asString? : Value → Option String
  | .string s => some s
  | _ => none

/-- The value of a field, where the value is an object that has it. -/
def field? (v : Value) (name : String) : Option Value :=
  v.asDict?.bind (·.get? name)

/-- A number as a value; JSON has no numbers but finite ones. -/
def ofFloat (x : Binary64) : Option Value :=
  if x.isFinite then some (.float x) else none

end Value

/-- The named arguments of a call. -/
abbrev Params := Dict Value

end ToolScript
