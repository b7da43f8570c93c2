import ToolScript.Json.Printer
import ToolScript.Json.Record

/-! # Records of blocks

    Every block of a reply leaves a record: how it ended, its output, and the tools that its script called. -/

namespace ToolScript
open Json

inductive Status where
  | success
  | error
  | blocked
  deriving DecidableEq

structure Record where
  plugin : String
  status : Status
  output : Value
  raw : String
  executed : List String

namespace Status

def name : Status → String
  | .success => "success"
  | .error => "error"
  | .blocked => "blocked"

def ofName? : String → Option Status
  | "success" => some .success
  | "error" => some .error
  | "blocked" => some .blocked
  | _ => none

def read? : Reader Status := fun n => (Node.name? n).bind ofName?

end Status

/-- A value as text: a string as it is, anything else in JSON. -/
def Value.plainText : Value → String
  | .string s => s
  | v => v.compact

namespace Record

/-- The plugin in the records of blocks. -/
def scriptPlugin : String := "NIT_Script"

def succeeded (r : Record) : Bool :=
  r.status = .success

def outputText (r : Record) : String :=
  r.output.plainText

def read? : Reader Record := fun n => do
  match ← n.slots? ["plugin", "status", "output", "raw_block", "executed_tools"] with
  | [plugin, status, output, raw, executed] =>
    return {
      plugin := ← required Node.string? plugin
      status := ← required Status.read? status
      output := ← required Node.value? output
      raw := ← required Node.string? raw
      executed := ← defaulted [] (Node.list? Node.string?) executed }
  | _ => none

end Record

end ToolScript
