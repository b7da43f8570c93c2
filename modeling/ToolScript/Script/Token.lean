import ToolScript.Number.Layout

/-! # Tokens of scripts

    A script is a row of tokens, each with the position of its first character. The last token marks the end of
    the script. -/

namespace ToolScript.Script

/-- A line and a column of a source, both counted from one. A line ends with its newline. -/
structure Position where
  line : Nat
  column : Nat
  deriving DecidableEq

namespace Position

def start : Position := ⟨1, 1⟩

/-- The position after a character. -/
def next (p : Position) (c : Char) : Position :=
  if c = '\n' then ⟨p.line + 1, 1⟩ else ⟨p.line, p.column + 1⟩

/-- The position after a text. -/
def after (p : Position) (s : List Char) : Position :=
  s.foldl next p

@[simp] theorem after_nil (p : Position) : p.after [] = p := rfl

@[simp] theorem after_cons (p : Position) (c : Char) (s : List Char) : p.after (c :: s) = (p.next c).after s := rfl

theorem after_append (p : Position) (s t : List Char) : p.after (s ++ t) = (p.after s).after t :=
  List.foldl_append

end Position

/-- A numeric literal; one with a decimal point is a floating-point number. -/
inductive Number where
  | integer (n : Int)
  | float (x : Binary64)
  deriving DecidableEq

def Number.text : Number → String
  | .integer n => toString n
  | .float x => x.text .plain

inductive TokenKind where
  | identifier (name : String)
  /-- A variable, without its dollar sign. -/
  | reference (name : String)
  /-- A quoted string, its escapes resolved. -/
  | string (value : String)
  | number (n : Number)
  | equals
  | openParen
  | closeParen
  | comma
  | async
  | eof
  deriving DecidableEq

namespace TokenKind

/-- What a message calls a token of this kind. -/
def describe : TokenKind → String
  | .identifier _ => "identifier"
  | .reference _ => "variable"
  | .string _ => "string"
  | .number _ => "number"
  | .equals => "`=`"
  | .openParen => "`(`"
  | .closeParen => "`)`"
  | .comma => "`,`"
  | .async => "`async`"
  | .eof => "end of input"

/-- The kind and the value of a token as one line of text. -/
def text : TokenKind → String
  | .identifier name => "IDENTIFIER(" ++ name ++ ")"
  | .reference name => "VARIABLE(" ++ name ++ ")"
  | .string value => "STRING(" ++ value ++ ")"
  | .number n => "NUMBER(" ++ n.text ++ ")"
  | .equals => "EQUALS"
  | .openParen => "LPAREN"
  | .closeParen => "RPAREN"
  | .comma => "COMMA"
  | .async => "ASYNC"
  | .eof => "EOF"

end TokenKind

structure Token where
  kind : TokenKind
  position : Position
  deriving DecidableEq

end ToolScript.Script
