import ToolScript.Json.Node
import ToolScript.Number.Numeral

/-! # Numbers of JSON

    An integer of 64 bits is read exactly. Of any other number as many digits are taken as an integer of 64 bits without a
    sign holds; the number is this integer times a power of ten. Both are rounded to floating-point numbers and so is their
    product or quotient, which can therefore differ in its last digits from the nearest floating-point number, and can
    be too large where the nearest one is not. -/

namespace ToolScript

/-! ### Powers of ten -/

namespace Magnitude

/-- The greatest exponent of a power of ten that has a magnitude. -/
def greatestPower : Nat := 308

/-- A magnitude times a power of ten; `none` where that is too large. -/
def timesTen? (x : Magnitude) (exponent : Nat) : Option Magnitude :=
  if exponent ≤ greatestPower then (ofRatio (powTen exponent) 1).bind x.mul?
  else if x = .zero then some x
  else none

/-- A magnitude over a power of ten, which is divided out step by step if it has no magnitude. -/
def overTen? (x : Magnitude) (exponent : Nat) : Option Magnitude :=
  if exponent ≤ greatestPower then (ofRatio (powTen exponent) 1).bind x.div?
  else if x = .zero then some x
  else ((ofRatio (powTen greatestPower) 1).bind x.div?).bind fun y => overTen? y (exponent - greatestPower)
termination_by exponent
decreasing_by
  simp only [greatestPower] at *
  omega

end Magnitude

namespace Json

/-! ### Digits -/

/-- A number with digits put behind it as long as it stays an unsigned integer of 64 bits, and the digits from the first
    one on that does not fit. -/
def takeDigits (n : Nat) : List Char → Nat × List Char
  | [] => (n, [])
  | c :: digits =>
    let next := 10 * n + (c.toNat - '0'.toNat)
    if (next : Int) ≤ maxUInt64 then takeDigits next digits else (n, c :: digits)

/-- An integer times a power of ten. -/
structure Scaled where
  significand : Nat
  power : Int

namespace Scaled

/-- What a numeral is read as. Digits before the point that do not fit count for their places, and those after it for
    nothing. -/
def ofNumeral (n : Numeral) : Scaled :=
  let fraction := n.fraction.getD []
  let (whole, places) := takeDigits 0 n.whole
  let (significand, rest) := takeDigits whole fraction
  { significand, power := n.written + places.length - (fraction.length - rest.length : Nat) }

def magnitude? (x : Scaled) : Option Magnitude :=
  (Magnitude.ofRatio x.significand 1).bind fun m =>
    if 0 ≤ x.power then m.timesTen? x.power.natAbs else m.overTen? x.power.natAbs

end Scaled

/-! ### Numbers -/

/-- Whether a numeral has the form of a JSON number: no plus sign, no superfluous zero in front, and a digit on
    either side of a point. -/
def isJsonNumber (n : Numeral) : Bool :=
  n.sign != some '+' && !n.whole.isEmpty && (n.whole.head? != some '0' || n.whole.length == 1) &&
    n.fraction.all (!·.isEmpty)

/-- An integer of at most 64 bits, signed or unsigned, is kept exactly; any other number is a floating-point number, also
    minus zero. -/
def numberNode (n : Numeral) : Node :=
  let i := n.toInt
  if n.isInteger && !(n.negative && i == 0) && decide (minInt64 ≤ i) && decide (i ≤ maxUInt64) then .int i
  else match (Scaled.ofNumeral n).magnitude? with
    | some m => .float (.finite n.negative m)
    | none => .malformed

end Json
end ToolScript
