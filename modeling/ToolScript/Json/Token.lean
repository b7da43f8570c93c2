import ToolScript.Json.Number
import ToolScript.Text.Hex

/-! # The tokens of JSON

    A text is read character by character. A number is the longest row of characters that occur in numbers, and a
    word the longest row of letters; each has to have the form of a JSON literal as a whole. -/

namespace ToolScript.Json

inductive Token where
  | openBrace
  | closeBrace
  | openBracket
  | closeBracket
  | colon
  | comma
  /-- A string; `none` where its escapes name half a surrogate pair. -/
  | string (s : Option String)
  /-- A number, a truth value or null. -/
  | literal (n : Node)

/-! ### Literals -/

def number? (written : List Char) : Option Token :=
  match Numeral.read? written with
  | some n => if isJsonNumber n then some (.literal (numberNode n)) else none
  | none => none

def word? (written : List Char) : Option Token :=
  match String.ofList written with
  | "null" => some (.literal .null)
  | "true" => some (.literal (.bool true))
  | "false" => some (.literal (.bool false))
  | _ => none

/-! ### Strings -/

/-- The inside of a string as far as it is read. -/
structure Spelling where
  /-- The characters read, the last one first. -/
  chars : List Char
  /-- A high surrogate whose low one has yet to come. -/
  high : Option Nat
  /-- Whether every surrogate so far has found its pair. -/
  sound : Bool

namespace Spelling

def empty : Spelling := ⟨[], none, true⟩

def push (p : Spelling) (c : Char) : Spelling :=
  ⟨c :: p.chars, none, p.sound && p.high.isNone⟩

def isHigh (u : Nat) : Bool := decide (0xD800 ≤ u) && decide (u < 0xDC00)
def isLow (u : Nat) : Bool := decide (0xDC00 ≤ u) && decide (u < 0xE000)

/-- A code unit written as an escape. -/
def pushUnit (p : Spelling) (u : Nat) : Spelling :=
  match p.high with
  | some h =>
    if isLow u then ⟨Char.ofNat (0x10000 + (h - 0xD800) * 0x400 + (u - 0xDC00)) :: p.chars, none, p.sound⟩
    else ⟨p.chars, none, false⟩
  | none =>
    if isHigh u then ⟨p.chars, some u, p.sound⟩
    else if isLow u then ⟨p.chars, none, false⟩
    else p.push (Char.ofNat u)

def finish (p : Spelling) : Option String :=
  if p.sound && p.high.isNone then some (String.ofList p.chars.reverse) else none

end Spelling

/-- The character that a backslash and a letter stand for. -/
def escaped? : Char → Option Char
  | '"' => some '"'
  | '\\' => some '\\'
  | '/' => some '/'
  | 'b' => some '\x08'
  | 'f' => some '\x0c'
  | 'n' => some '\n'
  | 'r' => some '\r'
  | 't' => some '\t'
  | _ => none

/-! ### Reading -/

/-- What the characters read last belong to. -/
inductive Scan where
  | between
  | number (written : List Char)
  | word (written : List Char)
  | string (p : Spelling)
  | escape (p : Spelling)
  /-- Inside `\u`: the digits still to come, and the value of those read. -/
  | unit (p : Spelling) (left : Nat) (value : Nat)

/-- The reader of tokens: the tokens read, the last one first, and what is being read. -/
structure Scanner where
  tokens : List Token
  scan : Scan

def isNumberChar (c : Char) : Bool :=
  c.isDigit || c == '-' || c == '+' || c == '.' || c == 'e' || c == 'E'

def punctuation? : Char → Option Token
  | '{' => some .openBrace
  | '}' => some .closeBrace
  | '[' => some .openBracket
  | ']' => some .closeBracket
  | ':' => some .colon
  | ',' => some .comma
  | _ => none

def isJsonBlank (c : Char) : Bool :=
  c == ' ' || c == '\t' || c == '\n' || c == '\r'

namespace Scanner

def start : Scanner := ⟨[], .between⟩

/-- A character that begins something. -/
def begin? (tokens : List Token) (c : Char) : Option Scanner :=
  if isJsonBlank c then some ⟨tokens, .between⟩
  else if c == '"' then some ⟨tokens, .string .empty⟩
  else if c == '-' || c.isDigit then some ⟨tokens, .number [c]⟩
  else if c.isAlpha then some ⟨tokens, .word [c]⟩
  else (punctuation? c).map fun t => ⟨t :: tokens, .between⟩

def step? (s : Scanner) (c : Char) : Option Scanner :=
  match s.scan with
  | .between => begin? s.tokens c
  | .number written =>
    if isNumberChar c then some ⟨s.tokens, .number (c :: written)⟩
    else (number? written.reverse).bind fun t => begin? (t :: s.tokens) c
  | .word written =>
    if c.isAlpha then some ⟨s.tokens, .word (c :: written)⟩
    else (word? written.reverse).bind fun t => begin? (t :: s.tokens) c
  | .string p =>
    if c == '"' then some ⟨.string p.finish :: s.tokens, .between⟩
    else if c == '\\' then some ⟨s.tokens, .escape p⟩
    else if c.toNat < 0x20 then none
    else some ⟨s.tokens, .string (p.push c)⟩
  | .escape p =>
    if c == 'u' then some ⟨s.tokens, .unit p 3 0⟩
    else (escaped? c).map fun e => ⟨s.tokens, .string (p.push e)⟩
  | .unit p left value =>
    (Text.hexValue? c).map fun d =>
      match left with
      | 0 => ⟨s.tokens, .string (p.pushUnit (16 * value + d))⟩
      | left + 1 => ⟨s.tokens, .unit p left (16 * value + d)⟩

def finish? (s : Scanner) : Option (List Token) :=
  match s.scan with
  | .between => some s.tokens.reverse
  | .number written => (number? written.reverse).map fun t => (t :: s.tokens).reverse
  | .word written => (word? written.reverse).map fun t => (t :: s.tokens).reverse
  | _ => none

end Scanner

/-- The tokens of a text, or nothing where it has a part that is none. -/
def tokens? (text : List Char) : Option (List Token) :=
  (text.foldlM Scanner.step? Scanner.start).bind Scanner.finish?

end ToolScript.Json
