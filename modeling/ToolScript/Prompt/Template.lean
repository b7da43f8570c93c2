import ToolScript.Json.Record
import ToolScript.Text.Blank
import ToolScript.Text.Pattern

/-! # Templates

    A template is a text with placeholders, names in double braces with blanks around them allowed. Rendering puts
    the values of variables in their places from left to right, and what is put in is not looked at again. A
    variable without a value is empty, unless it is required. -/

namespace ToolScript
open Json Text

inductive TemplateError where
  | missingVariable (name : String)
  | missingPlaceholder (name : String)
  deriving DecidableEq

def TemplateError.message : TemplateError → String
  | .missingVariable name => "missing required variable: " ++ name
  | .missingPlaceholder name => "template has no \x7b\x7b" ++ name ++ "\x7d\x7d placeholder"

/-! ### Placeholders -/

def isNameStart (c : Char) : Bool :=
  c.isAlpha || c == '_'

def isNameChar (c : Char) : Bool :=
  c.isAlphanum || c == '_'

/-- The parts of a placeholder after its opening braces: blanks, the name, blanks. -/
structure PlaceholderParts where
  before : List Char
  name : List Char
  after : List Char
  rest : List Char

/-- The longest parts at the front of a text, and what follows them. -/
def placeholderParts (s : List Char) : PlaceholderParts :=
  let s1 := s.dropWhile isBlank
  let s2 := s1.dropWhile isNameChar
  ⟨s.takeWhile isBlank, s1.takeWhile isNameChar, s2.takeWhile isBlank, s2.dropWhile isBlank⟩

theorem placeholderParts_eq_append (s : List Char) :
    s = (placeholderParts s).before ++ ((placeholderParts s).name ++
      ((placeholderParts s).after ++ (placeholderParts s).rest)) := by
  simp [placeholderParts, List.takeWhile_append_dropWhile]

def placeholderMatch? : List Char → Option (Match String)
  | '{' :: '{' :: s =>
    let p := placeholderParts s
    match p.rest with
    | '}' :: '}' :: rest =>
      if p.name.head?.any isNameStart then
        some ⟨String.ofList p.name, '{' :: '{' :: (p.before ++ (p.name ++ (p.after ++ ['}', '}']))), rest⟩
      else none
    | _ => none
  | _ => none

theorem placeholderMatch?_eq_append {s : List Char} {m : Match String} (h : placeholderMatch? s = some m) :
    s = m.text ++ m.rest ∧ m.text ≠ [] := by
  unfold placeholderMatch? at h
  split at h
  · rename_i s
    have parts := placeholderParts_eq_append s
    simp only at h
    split at h
    · rename_i rest closed
      split at h
      · cases h
        rw [closed] at parts
        refine ⟨?_, by simp⟩
        conv => lhs; rw [parts]
        simp
      · cases h
    · cases h
  · cases h

/-- The pattern of a placeholder; its meaning is the name. -/
def placeholder : Pattern String where
  match? := placeholderMatch?
  text_ne_nil h := (placeholderMatch?_eq_append h).2
  eq_append h := (placeholderMatch?_eq_append h).1

/-! ### Templates -/

structure Template where
  text : String
  /-- The values stored for variables. -/
  stored : Dict String
  required : List String

namespace Template

def ofText (text : String) : Template := ⟨text, .empty, []⟩

def setVariable (t : Template) (name value : String) : Template :=
  { t with stored := t.stored.insert name value }

/-- The text cut at its placeholders. -/
def pieces (t : Template) : Pieces String :=
  placeholder.cut t.text.toList

/-- The names with placeholders in the text, each once, in the order of their first places. -/
def placeholders (t : Template) : List String :=
  (t.pieces.hits.map (·.2.value)).eraseDups

/-- The value of a variable; an override goes before the value stored. -/
def value? (t : Template) (overrides : Dict String) (name : String) : Option String :=
  (overrides.get? name).or (t.stored.get? name)

def render (t : Template) (overrides : Dict String) : Except TemplateError String :=
  match t.required.find? fun name => (t.value? overrides name).isNone with
  | some name => .error (.missingVariable name)
  | none => .ok (String.ofList (t.pieces.replace fun name => ((t.value? overrides name).getD "").toList))

/-! ### In JSON -/

def json (t : Template) : Value :=
  record [("template", some (.string t.text)), ("variables", some (.ofDict (t.stored.map fun _ s => .string s))),
    ("required", some (.array (t.required.map .string)))]

def read? : Reader Template := fun n => do
  match ← n.slots? ["template", "variables", "required"] with
  | [text, stored, names] =>
    return {
      text := ← Json.required Node.string? text
      stored := ← Json.required (Node.dict? Node.string?) stored
      required := ← Json.required (Node.list? Node.string?) names }
  | _ => none

end Template

end ToolScript
