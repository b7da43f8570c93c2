import ToolScript.Json.Value
import ToolScript.Number.Layout
import ToolScript.Text.Hex

/-! # Writing JSON

    The compact form has no blanks at all. The pretty form puts every item and field on a line of its own, two
    blanks deeper than its array or object. Strings escape quotes, backslashes and control characters alone. -/

namespace ToolScript.Json

/-- A character inside a string. -/
def escape (c : Char) : List Char :=
  if c = '"' then ['\\', '"']
  else if c = '\\' then ['\\', '\\']
  else if c = '\x08' then ['\\', 'b']
  else if c = '\x0c' then ['\\', 'f']
  else if c = '\n' then ['\\', 'n']
  else if c = '\r' then ['\\', 'r']
  else if c = '\t' then ['\\', 't']
  else if c.toNat < 0x20 then '\\' :: 'u' :: Text.hexDigits 4 c.toNat
  else [c]

/-- A string in quotes. -/
def quoted (s : String) : List Char :=
  '"' :: (s.toList.flatMap escape ++ ['"'])

def intText (n : Int) : List Char :=
  if n < 0 then '-' :: decimalDigits n.natAbs else decimalDigits n.natAbs

end ToolScript.Json

namespace ToolScript.Value
open Json

/-- The text of a value that is neither an array nor an object. -/
def atomText : Value → List Char
  | .bool true => ['t', 'r', 'u', 'e']
  | .bool false => ['f', 'a', 'l', 's', 'e']
  | .int n => intText n
  | .float x => (x.text .json).toList
  | .string s => quoted s
  | _ => ['n', 'u', 'l', 'l']

/-! ### The compact form -/

mutual

def compactChars : Value → List Char
  | .array items => '[' :: ([','].intercalate (compactItems items) ++ [']'])
  | .object fields => '{' :: ([','].intercalate (compactFields fields) ++ ['}'])
  | v => v.atomText

def compactItems : List Value → List (List Char)
  | [] => []
  | v :: rest => compactChars v :: compactItems rest

def compactFields : List (String × Value) → List (List Char)
  | [] => []
  | (name, v) :: rest => (quoted name ++ ':' :: compactChars v) :: compactFields rest

end

/-- The compact text of a value. -/
def compact (v : Value) : String :=
  String.ofList v.compactChars

/-! ### The pretty form -/

def newline (indent : Nat) : List Char :=
  '\n' :: List.replicate (2 * indent) ' '

mutual

def prettyChars (indent : Nat) : Value → List Char
  | .array [] => ['[', ']']
  | .array items => '[' :: (prettyItems (indent + 1) items ++ newline indent ++ [']'])
  | .object [] => ['{', '}']
  | .object fields => '{' :: (prettyFields (indent + 1) fields ++ newline indent ++ ['}'])
  | v => v.atomText

/-- Every item on its line, a comma after all but the last. -/
def prettyItems (indent : Nat) : List Value → List Char
  | [] => []
  | [v] => newline indent ++ prettyChars indent v
  | v :: rest => newline indent ++ prettyChars indent v ++ ',' :: prettyItems indent rest

def prettyFields (indent : Nat) : List (String × Value) → List Char
  | [] => []
  | [(name, v)] => newline indent ++ quoted name ++ ':' :: ' ' :: prettyChars indent v
  | (name, v) :: rest =>
    newline indent ++ quoted name ++ ':' :: ' ' :: prettyChars indent v ++ ',' :: prettyFields indent rest

end

/-- The pretty text of a value, its fields in the order listed. -/
def pretty (v : Value) : String :=
  String.ofList (v.prettyChars 0)

end ToolScript.Value
