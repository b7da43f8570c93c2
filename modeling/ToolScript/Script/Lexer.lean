import ToolScript.Script.Token
import ToolScript.Number.Numeral
import ToolScript.Text.Letter

/-! # From sources to tokens

    A source is read character by character. Words and numbers extend as far as they can; blanks and comments part
    tokens and are otherwise passed over. Reading stops at the first lexeme that cannot be completed, and the error
    stands at its first character. -/

namespace ToolScript.Script
open Text

/-! ### Errors -/

/-- Why a lexeme cannot be completed. -/
inductive LexFault where
  | unexpected (c : Char)
  | unterminated
  | malformedNumber (written : String)
  deriving DecidableEq

def LexFault.message : LexFault → String
  | .unexpected c => "unexpected character `" ++ String.ofList [c] ++ "`"
  | .unterminated => "unterminated string"
  | .malformedNumber written => "malformed number `" ++ written ++ "`"

structure LexError where
  fault : LexFault
  position : Position
  deriving DecidableEq

/-! ### Lexemes -/

def isNumberChar (c : Char) : Bool :=
  c.isDigit || c == '.'

/-- The number that a row of digits and points writes. Integers beyond 64 bits become floating-point numbers. -/
def numberOf? (written : List Char) : Option Number :=
  if written.contains '.' then (float? written).map .float
  else match int64? written with
    | some n => some (.integer n)
    | none => (float? written).map .float

/-- The token of a word; one word is a keyword. -/
def wordKind (word : String) : TokenKind :=
  if word = "async" then .async else .identifier word

/-- The character that a backslash and a character stand for in a string. -/
def unescaped : Char → Char
  | 'n' => '\n'
  | 't' => '\t'
  | c => c

def punctuation? : Char → Option TokenKind
  | '=' => some .equals
  | '(' => some .openParen
  | ')' => some .closeParen
  | ',' => some .comma
  | _ => none

/-! ### Reading -/

/-- What the characters read last belong to; texts have their last character first. -/
inductive Scan where
  | between
  | comment
  | reference (name : List Char)
  | word (name : List Char)
  | number (written : List Char)
  | string (quote : Char) (value : List Char)
  | escape (quote : Char) (value : List Char)

/-- The lexer in the middle of a source. -/
structure Lexer where
  /-- The tokens read, the last one first. -/
  tokens : List Token
  scan : Scan
  /-- Where the lexeme being read begins. -/
  start : Position
  /-- Where the next character stands. -/
  position : Position

/-- The token that is complete when no further character belongs to it. -/
def Scan.kind? : Scan → Except LexFault (Option TokenKind)
  | .between => .ok none
  | .comment => .ok none
  | .reference name => .ok (some (.reference (String.ofList name.reverse)))
  | .word name => .ok (some (wordKind (String.ofList name.reverse)))
  | .number written =>
    match numberOf? written.reverse with
    | some n => .ok (some (.number n))
    | none => .error (.malformedNumber (String.ofList written.reverse))
  | .string .. => .error .unterminated
  | .escape .. => .error .unterminated

namespace Lexer

def initial : Lexer := ⟨[], .between, .start, .start⟩

/-- The token being read is complete. -/
def complete (l : Lexer) : Except LexError Lexer :=
  match l.scan.kind? with
  | .ok none => .ok { l with scan := .between }
  | .ok (some kind) => .ok { l with tokens := ⟨kind, l.start⟩ :: l.tokens, scan := .between }
  | .error fault => .error ⟨fault, l.start⟩

/-- What a character begins when it stands between lexemes. -/
def begin (l : Lexer) (c : Char) : Except LexError Lexer :=
  let next := l.position.next c
  if isBlank c then .ok { l with scan := .between, position := next }
  else if c = '#' then .ok { l with scan := .comment, position := next }
  else if c = '$' then .ok { l with scan := .reference [], start := l.position, position := next }
  else if c = '"' ∨ c = '\'' then .ok { l with scan := .string c [], start := l.position, position := next }
  else match punctuation? c with
    | some kind => .ok { l with tokens := ⟨kind, l.position⟩ :: l.tokens, scan := .between, position := next }
    | none =>
      if c.isDigit then .ok { l with scan := .number [c], start := l.position, position := next }
      else if isWordStart c then .ok { l with scan := .word [c], start := l.position, position := next }
      else .error ⟨.unexpected c, l.position⟩

/-- Takes the next character: into the lexeme being read if it belongs to it, else after it. -/
def step (l : Lexer) (c : Char) : Except LexError Lexer :=
  let next := l.position.next c
  match l.scan with
  | .between => l.begin c
  | .comment => if c = '\n' then l.begin c else .ok { l with position := next }
  | .reference name =>
    if isWordChar c then .ok { l with scan := .reference (c :: name), position := next }
    else l.complete.bind (·.begin c)
  | .word name =>
    if isWordChar c then .ok { l with scan := .word (c :: name), position := next }
    else l.complete.bind (·.begin c)
  | .number written =>
    if isNumberChar c then .ok { l with scan := .number (c :: written), position := next }
    else l.complete.bind (·.begin c)
  | .string quote value =>
    if c = quote then
      let token : Token := ⟨.string (String.ofList value.reverse), l.start⟩
      .ok { l with tokens := token :: l.tokens, scan := .between, position := next }
    else if c = '\\' then .ok { l with scan := .escape quote value, position := next }
    else .ok { l with scan := .string quote (c :: value), position := next }
  | .escape quote value => .ok { l with scan := .string quote (unescaped c :: value), position := next }

/-- The source has come to its end. -/
def finish (l : Lexer) : Except LexError (List Token) :=
  l.complete.map fun l => (⟨.eof, l.position⟩ :: l.tokens).reverse

end Lexer

/-- The tokens of a source, the last of them marking its end. -/
def tokenize (source : String) : Except LexError (List Token) := do
  let l ← source.toList.foldlM Lexer.step Lexer.initial
  l.finish

end ToolScript.Script
