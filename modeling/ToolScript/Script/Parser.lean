import ToolScript.Script.Tree

/-! # From tokens to trees

    The grammar of scripts is

        script    := statement*
        statement := [VARIABLE "="] ["async"] IDENTIFIER "(" [argument ("," argument)*] ")"
        argument  := IDENTIFIER "=" (STRING | NUMBER | VARIABLE)

    No part of it nests, so a script is read token by token with a finite number of places in the grammar. A token
    that cannot stand at its place ends the reading, and the error names it and what was expected. -/

namespace ToolScript.Script

/-! ### Errors -/

inductive Expected where
  | identifier
  | value
  | equals
  | openParen
  | closeParen
  deriving DecidableEq

def Expected.describe : Expected → String
  | .identifier => TokenKind.describe (.identifier "")
  | .value => "value"
  | .equals => TokenKind.describe .equals
  | .openParen => TokenKind.describe .openParen
  | .closeParen => TokenKind.describe .closeParen

structure ParseError where
  expected : Expected
  found : Token
  deriving DecidableEq

def ParseError.message (e : ParseError) : String :=
  "expected " ++ e.expected.describe ++ ", found " ++ e.found.kind.describe

def ParseError.position (e : ParseError) : Position :=
  e.found.position

/-! ### Places in the grammar -/

/-- The part of a statement before its arguments. -/
structure Head where
  target : Option String
  isAsync : Bool
  tool : String

/-- Where in the grammar the next token stands, with what the statement has so far. -/
inductive Place where
  | statement
  | assignment (target : String)
  | call (target : Option String)
  | tool (target : Option String)
  | openParen (h : Head)
  | firstArgument (h : Head)
  | argument (h : Head) (args : Dict Expr)
  | equals (h : Head) (args : Dict Expr) (name : String)
  | value (h : Head) (args : Dict Expr) (name : String)
  | separator (h : Head) (args : Dict Expr)

/-- What a token at a place leads to: a further place, or the end of a statement. -/
inductive Move where
  | go (p : Place)
  | complete (s : Statement)

def Head.statement (h : Head) (args : Dict Expr) : Statement :=
  ⟨h.target, h.tool, args, h.isAsync⟩

/-- The argument value that a token is. -/
def TokenKind.expr? : TokenKind → Option Expr
  | .string s => some (.literal (.string s))
  | .number n => some (.literal (.number n))
  | .reference name => some (.reference name)
  | _ => none

namespace Place

/-- What an error at a place says was expected. -/
def expected : Place → Expected
  | .statement => .identifier
  | .assignment _ => .equals
  | .call _ => .identifier
  | .tool _ => .identifier
  | .openParen _ => .openParen
  | .firstArgument _ => .identifier
  | .argument .. => .identifier
  | .equals .. => .equals
  | .value .. => .value
  | .separator .. => .closeParen

def move? : Place → TokenKind → Option Move
  | .statement, .reference target => some (.go (.assignment target))
  | .statement, .async => some (.go (.tool none))
  | .statement, .identifier name => some (.go (.openParen ⟨none, false, name⟩))
  | .assignment target, .equals => some (.go (.call (some target)))
  | .call target, .async => some (.go (.tool target))
  | .call target, .identifier name => some (.go (.openParen ⟨target, false, name⟩))
  | .tool target, .identifier name => some (.go (.openParen ⟨target, true, name⟩))
  | .openParen h, .openParen => some (.go (.firstArgument h))
  | .firstArgument h, .identifier name => some (.go (.equals h .empty name))
  | .firstArgument h, .closeParen => some (.complete (h.statement .empty))
  | .argument h args, .identifier name => some (.go (.equals h args name))
  | .equals h args name, .equals => some (.go (.value h args name))
  | .value h args name, kind => kind.expr?.map fun e => .go (.separator h (args.insert name e))
  | .separator h args, .comma => some (.go (.argument h args))
  | .separator h args, .closeParen => some (.complete (h.statement args))
  | _, _ => none

end Place

/-! ### Reading -/

/-- The parser in the middle of a script: the statements read, the last one first, and the place it is at. -/
structure Parser where
  statements : List Statement
  place : Place

namespace Parser

def initial : Parser := ⟨[], .statement⟩

def step (p : Parser) (t : Token) : Except ParseError Parser :=
  match p.place.move? t.kind with
  | some (.go place) => .ok { p with place }
  | some (.complete s) => .ok ⟨s :: p.statements, .statement⟩
  | none => .error ⟨p.place.expected, t⟩

/-- The script has come to its end, marked by the token `eof`. -/
def finish (p : Parser) (eof : Token) : Except ParseError (List Statement) :=
  match p.place with
  | .statement => .ok p.statements.reverse
  | place => .error ⟨place.expected, eof⟩

end Parser

/-- The tokens before the first that marks an end. -/
def body (tokens : List Token) : List Token :=
  tokens.takeWhile (·.kind ≠ .eof)

/-- The token that marks the end of a script. Where there is none the last token lends its position. -/
def endToken (tokens : List Token) : Token :=
  match tokens.find? (·.kind = .eof) with
  | some t => t
  | none => ⟨.eof, (tokens.getLast?.map (·.position)).getD .start⟩

/-- The script that a list of tokens writes. -/
def parse (tokens : List Token) : Except ParseError (List Statement) := do
  let p ← (body tokens).foldlM Parser.step Parser.initial
  p.finish (endToken tokens)

end ToolScript.Script
