import ToolScript.Security.Handshake
import ToolScript.Json.Record

/-! # Verdicts on blocks

    A block runs if its tag has the identifier that is expected, or, where the policy allows it, no identifier. Where
    no identifier is expected every block runs. -/

namespace ToolScript.Security
open Json

inductive Verdict where
  | allow
  /-- The block has no identifier, and runs all the same. -/
  | fallback
  | block (reason : String)
  deriving DecidableEq

namespace Verdict

def permits : Verdict → Bool
  | .block _ => false
  | _ => true

def mismatch (expected : TurnId) (written : String) : String :=
  "security block: NIT ID mismatch (expected " ++ expected.text ++ ", got " ++ Text.trimmed written ++ ")"

def untagged (expected : TurnId) : String :=
  "security block: untagged <nit> block while " ++ expected.openTag ++ " is required"

end Verdict

/-- The verdict on a block with the given identifier. -/
def verdict (written : Option String) (expected : Option TurnId) (policy : Policy) : Verdict :=
  match expected with
  | none => .allow
  | some expected =>
    match validate written expected.text, policy with
    | .valid, _ => .allow
    | .invalid, _ => .block (Verdict.mismatch expected (written.getD ""))
    | .missing, .allowFallback => .fallback
    | .missing, .strict => .block (Verdict.untagged expected)

/-! ### In JSON -/

namespace Policy

def name : Policy → String
  | .allowFallback => "allow_fallback"
  | .strict => "strict"

def ofName? : String → Option Policy
  | "allow_fallback" => some .allowFallback
  | "strict" => some .strict
  | _ => none

def read? : Reader Policy := fun n => (Node.name? n).bind ofName?

end Policy

namespace Validation

def name : Validation → String
  | .valid => "valid"
  | .invalid => "invalid"
  | .missing => "missing"

def ofName? : String → Option Validation
  | "valid" => some .valid
  | "invalid" => some .invalid
  | "missing" => some .missing
  | _ => none

def read? : Reader Validation := fun n => (Node.name? n).bind ofName?

end Validation

namespace Verdict

def json : Verdict → Value
  | .allow => .object [("verdict", .string "allow")]
  | .fallback => .object [("verdict", .string "fallback")]
  | .block reason => .object [("verdict", .string "block"), ("reason", .string reason)]

/-- The verdict that consists of its tag alone. -/
def ofTag? : String → Option Verdict
  | "allow" => some .allow
  | "fallback" => some .fallback
  | _ => none

/-- A verdict from an object or an array with the tag in front. The tag is found before the rest is understood, so
    nothing in it may be malformed. -/
def read? (n : Node) : Option Verdict := do
  guard n.value?.isSome
  match n with
  | .object fields =>
    let tag ← required Node.string? (← Node.slot? fields "verdict")
    match tag with
    | "block" => (required Node.string? (← Node.slot? fields "reason")).map .block
    | tag => ofTag? tag
  | .array (tag :: rest) =>
    match ← Node.string? tag, rest with
    | "block", [reason] => (Node.string? reason).map .block
    | tag, [] => ofTag? tag
    | _, _ => none
  | _ => none

end Verdict

end ToolScript.Security
