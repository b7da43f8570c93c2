import ToolScript.Json.Reader
import ToolScript.Text.Blank
import ToolScript.Text.Key

/-! # Arguments brought to their schema

    Arguments come as strings or numbers whatever a tool expects. Where a tool has a schema, a string is turned
    into a value of the type that the schema declares, and a parameter is renamed to the schema's spelling of its
    name. A string that does not fit the type stays as it was written. -/

namespace ToolScript

/-- The types to which a string can be brought. -/
inductive ArgumentType where
  | integer
  | number
  | boolean
  | array
  | object
  | string
  deriving DecidableEq

namespace ArgumentType

def ofName? : String → Option ArgumentType
  | "integer" => some .integer
  | "number" => some .number
  | "boolean" => some .boolean
  | "array" => some .array
  | "object" => some .object
  | "string" => some .string
  | _ => none

end ArgumentType

namespace Coerce
open Text

def isQuote (c : Char) : Bool :=
  c == '"' || c == '\''

/-- A text without the quotes around it, where it begins and ends with the same quote. -/
def unquoted : List Char → List Char
  | c :: d :: rest => if isQuote c && (d :: rest).getLast? == some c then (d :: rest).dropLast else c :: d :: rest
  | s => s

/-! ### One type at a time -/

def toInteger? (s : List Char) : Option Value :=
  let s := unquoted (trim s)
  match int64? s with
  | some n => some (.int n)
  | none => match float? s with
    | some x => if x.isFinite then some (.int x.truncate) else none
    | none => none

def toNumber? (s : List Char) : Option Value :=
  (float? (unquoted (trim s))).bind Value.ofFloat

def trueWords : List String := ["true", "1", "yes", "on", "y"]
def falseWords : List String := ["false", "0", "no", "off", "n"]

def toBoolean? (s : List Char) : Option Value :=
  let word := String.ofList ((unquoted (trim s)).map Char.toLower)
  if trueWords.contains word then some (.bool true)
  else if falseWords.contains word then some (.bool false)
  else none

/-- The value of a JSON text, or of the text with its single quotes made double. -/
def readRepaired? (s : List Char) : Option Value :=
  (Value.read? (String.ofList s)).or (Value.read? (String.ofList (s.map fun c => if c == '\'' then '"' else c)))

/-- A text without the square brackets around it. -/
def unbracketed (s : List Char) : List Char :=
  match s with
  | '[' :: inner => if inner.getLast? == some ']' then inner.dropLast else s
  | _ => s

def textItem (s : List Char) : Value :=
  .string (String.ofList s)

/-- The items of a list of words, parted by commas. A text without a comma is a single item, even if empty. -/
def listItems (s : List Char) : List Value :=
  if s.contains ',' then
    (((s.splitOn ',').map fun item => unquoted (trim item)).filter (!·.isEmpty)).map textItem
  else [textItem (unquoted (trim s))]

def toArray (s : List Char) : Value :=
  let s := trim s
  match readRepaired? s with
  | some (.array items) => .array items
  | _ => .array (listItems (unbracketed s))

def toObject? (s : List Char) : Option Value :=
  match readRepaired? (trim s) with
  | some (.object fields) => some (.object fields)
  | _ => none

def convert? (s : List Char) : ArgumentType → Option Value
  | .integer => toInteger? s
  | .number => toNumber? s
  | .boolean => toBoolean? s
  | .array => some (toArray s)
  | .object => toObject? s
  | .string => some (textItem (unquoted s))

/-- A value brought to a type: a string that fits the type is converted, all else stays. -/
def value (v : Value) (type : ArgumentType) : Value :=
  match v with
  | .string s => (convert? s.toList type).getD v
  | _ => v

/-- A value brought to the type of a given name, if there is such a type. -/
def valueTo (v : Value) (typeName : String) : Value :=
  match ArgumentType.ofName? typeName with
  | some type => value v type
  | none => v

/-! ### All arguments of a call -/

/-- The name of the type that a property declares; of a list of names the first that is not null. -/
def declaredType? (property : Value) : Option String :=
  match property.field? "type" with
  | some (.string name) => some name
  | some (.array names) => (names.filterMap Value.asString?).find? (· != "null")
  | _ => none

/-- The first property whose name has the normal form of the given name. -/
def property? (properties : Dict Value) (name : String) : Option (String × Value) :=
  properties.entries.find? fun p => normalKey p.1 == normalKey name

/-- A parameter under the schema's spelling and brought to the declared type; one unknown to the schema stays. -/
def parameter (properties : Dict Value) (name : String) (v : Value) : String × Value :=
  match property? properties name with
  | none => (name, v)
  | some (spelling, property) => (spelling, (declaredType? property).elim v (valueTo v))

/-- The parameters of a call brought to a schema. Of parameters that come to have one name the last counts. -/
def params (ps : Params) (schema : Value) : Params :=
  match (schema.field? "properties").bind Value.asDict? with
  | none => ps
  | some properties => .ofList (ps.entries.map fun e => parameter properties e.1 e.2)

end Coerce

end ToolScript
