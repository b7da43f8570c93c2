import ToolScript.Script.Lexer
import ToolScript.Script.Run

/-! # Diagnostics

    An error in a source is shown with the line it stands on and a caret under its column. `execute` reads and
    runs a source, and its errors are those of the lexer, the parser or a call. -/

namespace ToolScript.Script

/-- The line of a source with a given number, without carriage returns at its end. -/
def sourceLine? (source : String) (line : Nat) : Option String :=
  if line = 0 then none
  else ((source.toList.splitOn '\n')[line - 1]?).map fun l =>
    String.ofList (l.reverse.dropWhile (· == '\r')).reverse

def headline (stage : String) (p : Position) (message : String) : String :=
  stage ++ " error at line " ++ toString p.line ++ ", column " ++ toString p.column ++ ": " ++ message

/-- An error with the line it stands on, where the source is given and has that line. -/
def diagnostic (stage : String) (p : Position) (message : String) (source : Option String) : String :=
  let head := "NIT " ++ headline stage p message
  match source.bind (sourceLine? · p.line) with
  | none => head
  | some line =>
    let gutter := "  " ++ toString p.line ++ " | "
    let blanks := String.ofList (List.replicate (gutter.length + (p.column - 1)) ' ')
    head ++ "\n" ++ gutter ++ line ++ "\n" ++ blanks ++ "^"

def LexError.text (e : LexError) : String :=
  headline "lex" e.position e.fault.message

def LexError.render (e : LexError) (source : Option String) : String :=
  diagnostic "lex" e.position e.fault.message source

def ParseError.text (e : ParseError) : String :=
  headline "parse" e.position e.message

def ParseError.render (e : ParseError) (source : Option String) : String :=
  diagnostic "parse" e.position e.message source

/-! ### Whole sources -/

inductive ScriptError where
  | lex (e : LexError)
  | parse (e : ParseError)
  | run (e : RunError)
  deriving DecidableEq

namespace ScriptError

def text : ScriptError → String
  | .lex e => e.text
  | .parse e => e.text
  | .run e => e.message

def render (source : String) : ScriptError → String
  | .lex e => e.render (some source)
  | .parse e => e.render (some source)
  | .run e => e.message

end ScriptError

/-- The statements of a source. -/
def read (source : String) : Except ScriptError (List Statement) :=
  match tokenize source with
  | .error e => .error (.lex e)
  | .ok tokens => match parse tokens with
    | .error e => .error (.parse e)
    | .ok script => .ok script

/-- Reads a source and runs it in a fresh scope. -/
def execute {σ : Type} (exec : Executor σ) (limits : ScopeLimits) (state : σ) (source : String) :
    Except ScriptError Value × σ :=
  match read source with
  | .error e => (.error e, state)
  | .ok script =>
    let o := run exec limits state script
    (match o.result with
      | .ok v => .ok v
      | .error e => .error (.run e), o.state)

end ToolScript.Script
