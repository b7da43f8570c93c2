import ToolScript.Json.Record
import ToolScript.Text.Blank
import ToolScript.Text.Hex
import ToolScript.Text.Size

/-! # Identifiers of turns

    A turn has an identifier of sixteen bits, written as four upper-case hexadecimal digits. It names the tags that
    scripts of the turn stand in. -/

namespace ToolScript

structure TurnId where
  bits : UInt16
  deriving DecidableEq

/-- Why a text is no identifier. -/
inductive TurnIdFault where
  | length
  | digits
  deriving DecidableEq

/-- A text that is no identifier. -/
structure TurnIdError where
  text : String
  fault : TurnIdFault
  deriving DecidableEq

def TurnIdError.message (e : TurnIdError) : String :=
  let reason := match e.fault with
    | .length => "expected 4 characters"
    | .digits => "identifier must be hexadecimal"
  "invalid nit id `" ++ e.text ++ "`: " ++ reason

namespace TurnId
open Text

/-- The four digits of an identifier. -/
def digits (t : TurnId) : List Char :=
  (hexDigits 4 t.bits.toNat).map Char.toUpper

def text (t : TurnId) : String :=
  String.ofList t.digits

/-- The number that hexadecimal digits write, where all characters are such digits. -/
def hexNumber? (s : List Char) : Option Nat :=
  s.foldlM (fun n c => (hexValue? c).map (16 * n + ·)) 0

/-- The identifier that a text writes in digits of either case, with blanks around them. -/
def ofText (text : String) : Except TurnIdError TurnId :=
  let s := trim text.toList
  if utf8Size s ≠ 4 then .error ⟨text, .length⟩
  else match hexNumber? s with
    | some n => .ok ⟨n.toUInt16⟩
    | none => .error ⟨text, .digits⟩

/-- The identifier that a string in JSON writes. -/
def read? : Json.Reader TurnId := fun n => (Json.Node.string? n).bind fun s => (ofText s).toOption

/-! ### Tags -/

def openTag (t : TurnId) : String :=
  "<nit-" ++ t.text ++ ">"

def closeTag (t : TurnId) : String :=
  "</nit-" ++ t.text ++ ">"

end TurnId

end ToolScript
