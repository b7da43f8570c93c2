import ToolScript.Digest.Hmac
import ToolScript.Markup.TurnId
import ToolScript.Text.Blank

/-! # The handshake of a turn

    Every turn has an identifier derived from the session and the number of the turn. The model is told to write its
    scripts in tags with this identifier, and blocks with another one were not written for the turn. Identifiers are
    derived anew whenever they are needed. -/

namespace ToolScript.Security
open Digest

/-- The salt used where none is configured. -/
def defaultSalt : String := "PERO_CORE_NIT_PROTOCOL_V2_SALT_2026"

/-- Whether scripts in tags without an identifier are run. -/
inductive Policy where
  | allowFallback
  | strict
  deriving DecidableEq

/-! ### Identifiers -/

/-- The secret of a session under a salt. -/
def sessionSecret (mac : Mac) (salt session : String) : Bytes :=
  mac (utf8 salt) (utf8 session)

/-- The identifier that the first two bytes of a code make. -/
def turnIdOf (code : Bytes) : TurnId :=
  ⟨(256 * (code.getD 0 0).toNat + (code.getD 1 0).toNat).toUInt16⟩

/-- The identifier of a turn: the beginning of the code of its decimal number under the session's secret. -/
def turnIdBy (mac : Mac) (salt session : String) (turn : Nat) : TurnId :=
  turnIdOf (mac (sessionSecret mac salt session) (utf8 (toString turn)))

def turnId (salt session : String) (turn : Nat) : TurnId :=
  turnIdBy hmacSha256 salt session turn

/-! ### Comparing -/

/-- How an identifier that was written compares with the expected one. -/
inductive Validation where
  | valid
  | invalid
  | missing
  deriving DecidableEq

/-- Compares two texts, blanks around them and ASCII case aside. A blank text is no identifier at all. -/
def validate (written : Option String) (expected : String) : Validation :=
  let s := Text.trim (written.getD "").toList
  if s.isEmpty then .missing
  else if s.map Char.toLower = (Text.trim expected.toList).map Char.toLower then .valid
  else .invalid

/-! ### What the model is told -/

/-- The instructions for a turn. -/
def handshakePrompt (t : TurnId) (policy : Policy) : String :=
  "\n[NIT SECURITY PROTOCOL]\n" ++
  "Current Session ID: " ++ t.text ++ "\n" ++
  "IMPORTANT: For this turn, you MUST wrap all NIT scripts in " ++ t.openTag ++ "..." ++ t.closeTag ++ " tags.\n" ++
  "Legacy NIT 1.0 format ([[[NIT_CALL]]]) and standard <nit> tags are currently DISABLED.\n" ++
  match policy with
  | .strict => "Blocks without the session tag will be rejected.\n"
  | .allowFallback => ""

end ToolScript.Security
