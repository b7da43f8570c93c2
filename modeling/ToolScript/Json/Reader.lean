import ToolScript.Json.Token

/-! # Reading JSON

    The tokens of a text are read one by one with the open arrays and objects on a stack, so a text may be nested
    as deep as it likes; nesting beyond 127 levels makes the part inside malformed. Nothing may follow the value. -/

namespace ToolScript.Json

/-- The depth to which arrays and objects may be nested. -/
def maxDepth : Nat := 127

/-- An array or object that is still open, its elements last one first. -/
inductive Frame where
  | array (items : List Node)
  /-- The fields read, whether all names were proper strings, and the name whose value has yet to come. -/
  | object (fields : List (String × Node)) (sound : Bool) (name : Option String)

/-- The tokens that may come next. -/
inductive Expected where
  | value
  | valueOrEnd
  | name
  | nameOrEnd
  | colon
  | separator

inductive Reading where
  | open (stack : List Frame) (expected : Expected)
  | done (n : Node)

namespace Reading

def start : Reading := .open [] .value

/-- A value is complete: it becomes part of the innermost open frame. -/
def add (n : Node) : List Frame → Option Reading
  | [] => some (.done n)
  | .array items :: stack => some (.open (.array (n :: items) :: stack) .separator)
  | .object fields sound (some name) :: stack =>
    some (.open (.object ((name, n) :: fields) sound none :: stack) .separator)
  | .object fields _ none :: stack => some (.open (.object fields false none :: stack) .separator)

/-- The innermost frame is closed, inside the `outer` ones. -/
def close (n : Node) (outer : List Frame) : Option Reading :=
  add (if (outer.drop (maxDepth - 1)).isEmpty then n else .malformed) outer

/-- A token at a place where a value may begin. -/
def value? (stack : List Frame) : Token → Option Reading
  | .literal n => add n stack
  | .string (some s) => add (.string s) stack
  | .string none => add .malformed stack
  | .openBracket => some (.open (.array [] :: stack) .valueOrEnd)
  | .openBrace => some (.open (.object [] true none :: stack) .nameOrEnd)
  | _ => none

def name? : List Frame → Option String → Option Reading
  | .object fields sound _ :: stack, some name => some (.open (.object fields sound (some name) :: stack) .colon)
  | .object fields _ _ :: stack, none => some (.open (.object fields false none :: stack) .colon)
  | _, _ => none

def end? : List Frame → Token → Option Reading
  | .array items :: stack, .closeBracket => close (.array items.reverse) stack
  | .object fields sound _ :: stack, .closeBrace =>
    close (if sound then .object fields.reverse else .malformed) stack
  | _, _ => none

def step? : Reading → Token → Option Reading
  | .done _, _ => none
  | .open stack .value, t => value? stack t
  | .open stack .valueOrEnd, t =>
    match t with
    | .closeBracket => end? stack t
    | _ => value? stack t
  | .open stack .name, t =>
    match t with
    | .string s => name? stack s
    | _ => none
  | .open stack .nameOrEnd, t =>
    match t with
    | .string s => name? stack s
    | _ => end? stack t
  | .open stack .colon, t =>
    match t with
    | .colon => some (.open stack .value)
    | _ => none
  | .open stack .separator, t =>
    match t, stack with
    | .comma, .array _ :: _ => some (.open stack .value)
    | .comma, .object .. :: _ => some (.open stack .name)
    | _, _ => end? stack t

def finish? : Reading → Option Node
  | .done n => some n
  | .open .. => none

end Reading

/-- The tree that a whole text writes. -/
def Node.read? (text : List Char) : Option Node := do
  let tokens ← tokens? text
  let reading ← tokens.foldlM Reading.step? Reading.start
  reading.finish?

end ToolScript.Json

namespace ToolScript
open Json

/-- The value that a whole text writes. -/
def Value.read? (text : String) : Option Value :=
  (Node.read? text.toList).bind Node.value?

end ToolScript
