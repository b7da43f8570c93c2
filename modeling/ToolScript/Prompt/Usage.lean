import ToolScript.Markup.TurnId
import ToolScript.Prompt.Template

/-! # The prompt about tools

    A model is told how to call tools by a template with the tags to use, the tools there are, and what else there
    is to say about the turn. -/

namespace ToolScript

/-- The template in use where none is given. -/
def usageTemplate : String :=
  "## NIT Tools\n" ++
  "Call tools by writing a script inside a tagged block:\n" ++
  "\n" ++
  "\x7b\x7bopen_tag\x7d\x7d\n" ++
  "$result = tool_name(arg=\"value\", count=3)\n" ++
  "next_tool(input=$result)\n" ++
  "\x7b\x7bclose_tag\x7d\x7d\n" ++
  "\n" ++
  "Arguments are named. Values are quoted strings, numbers, or $variables bound earlier in the same block.\n" ++
  "\n" ++
  "\x7b\x7btools\x7d\x7d\n" ++
  "\x7b\x7bhandshake\x7d\x7d\x7b\x7blightweight\x7d\x7d"

/-- What goes into the prompt. -/
structure Usage where
  template : Template
  /-- The description of the tools. -/
  tools : String
  /-- The identifier of the turn with the instructions about it. -/
  turn : Option (TurnId × String)
  /-- The plugins that remain in lightweight mode, where the mode is on. -/
  lightweight : Option (List String)

namespace Usage

/-- The placeholders that a template has to have, in the order in which they are missed. -/
def neededPlaceholders : List String := ["open_tag", "close_tag", "tools"]

def lightweightNotice (allowed : List String) : String :=
  "\n[Lightweight chat mode is on. Only " ++ String.intercalate ", " allowed ++ " remain available. " ++
  "Skip extended reasoning and write NIT scripts directly when a tool is needed.]\n"

/-- The values for the placeholders. -/
def values (u : Usage) : Dict String :=
  .ofList [
    ("open_tag", (u.turn.map (·.1.openTag)).getD "<nit>"),
    ("close_tag", (u.turn.map (·.1.closeTag)).getD "</nit>"),
    ("tools", u.tools),
    ("handshake", (u.turn.map (·.2)).getD ""),
    ("lightweight", (u.lightweight.map lightweightNotice).getD "")]

/-- The prompt. -/
def prompt (u : Usage) : Except TemplateError String :=
  match neededPlaceholders.find? (!u.template.placeholders.contains ·) with
  | some name => .error (.missingPlaceholder name)
  | none => u.template.render u.values

end Usage

end ToolScript
