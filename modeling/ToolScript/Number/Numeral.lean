import ToolScript.Number.Binary64
import ToolScript.Number.Integer

/-! # Decimal numerals

    The parts of a numeral as written (sign, digits before and after the point, exponent) and its value: an
    integer when there is neither point nor exponent, else the nearest binary floating-point number. A numeral is
    read from a whole text; which of its parts have to be there is for its users to say. -/

namespace ToolScript

/-- The exponent of a numeral: its sign and digits. -/
structure ExponentPart where
  negative : Bool
  digits : List Char

/-- A numeral as written. -/
structure Numeral where
  sign : Option Char
  whole : List Char
  fraction : Option (List Char)
  exponent : Option ExponentPart

namespace Numeral

/-! ### Reading -/

/-- The sign at the front of a text, if there is one. -/
def readSign : List Char → Option Char × List Char
  | '-' :: s => (some '-', s)
  | '+' :: s => (some '+', s)
  | s => (none, s)

/-- The digits after the point, where a point comes first. -/
def readFraction : List Char → Option (List Char) × List Char
  | '.' :: s => (some (s.takeWhile Char.isDigit), s.dropWhile Char.isDigit)
  | s => (none, s)

/-- A whole text as an exponent part. -/
def readExponent? : List Char → Option (Option ExponentPart)
  | [] => some none
  | c :: s =>
    let (sign, digits) := readSign s
    if (c == 'e' || c == 'E') && !digits.isEmpty && digits.all Char.isDigit then some (some ⟨sign == some '-', digits⟩)
    else none

/-- The numeral that a whole text is; any of its rows of digits may be empty except that of the exponent. -/
def read? (s : List Char) : Option Numeral :=
  let (sign, s) := readSign s
  let whole := s.takeWhile Char.isDigit
  let (fraction, s) := readFraction (s.dropWhile Char.isDigit)
  (readExponent? s).map fun exponent => ⟨sign, whole, fraction, exponent⟩

/-! ### Value -/

def negative (n : Numeral) : Bool :=
  n.sign == some '-'

/-- Whether there is a digit before or after the point. -/
def hasDigit (n : Numeral) : Bool :=
  !n.whole.isEmpty || n.fraction.any (!·.isEmpty)

/-- Whether the numeral writes an integer: digits with neither point nor exponent. -/
def isInteger (n : Numeral) : Bool :=
  n.fraction.isNone && n.exponent.isNone

/-- The digits before the point as a signed number. -/
def toInt (n : Numeral) : Int :=
  if n.negative then -(digitsValue n.whole : Int) else digitsValue n.whole

/-- The digits of the numeral without the point. -/
def digits (n : Numeral) : List Char :=
  n.whole ++ n.fraction.getD []

/-- The power of ten that the exponent writes. -/
def written (n : Numeral) : Int :=
  match n.exponent with
  | none => 0
  | some e => if e.negative then -(digitsValue e.digits : Int) else digitsValue e.digits

/-- The power of ten by which the digits count. -/
def power (n : Numeral) : Int :=
  n.written - ((n.fraction.getD []).length : Int)

end Numeral

/-- The magnitude nearest to `digits * 10 ^ power`. Powers beyond the range of magnitudes are settled by the number
    of binary digits alone: `10 ^ k` has more than `3 * k` of them. -/
def Magnitude.ofDecimal (digits : Nat) (power : Int) : Option Magnitude :=
  if digits = 0 then some .zero
  else if power ≥ 0 then
    if power > 310 then none else ofRatio (digits * powTen power.toNat) 1
  else
    let k := (-power).toNat
    if 3 * k > digits.log2 + 1100 then some .zero else ofRatio digits (powTen k)

/-- The binary number nearest to a numeral; infinite beyond the finite range. -/
def Binary64.ofNumeral (n : Numeral) : Binary64 :=
  match Magnitude.ofDecimal (digitsValue n.digits) n.power with
  | some m => .finite n.negative m
  | none => .infinite n.negative

/-! ### Numbers as whole texts -/

/-- The signed 64-bit integer that a text writes: an optional sign and at least one digit. -/
def int64? (s : List Char) : Option Int :=
  match Numeral.read? s with
  | some n =>
    if n.isInteger && n.hasDigit && isInt64 n.toInt then some n.toInt else none
  | none => none

/-- The words for numbers that are not finite, in any ASCII case. -/
def notFinite? (s : List Char) : Option Binary64 :=
  let (sign, word) := Numeral.readSign s
  let word := String.ofList (word.map Char.toLower)
  if word = "inf" || word = "infinity" then some (.infinite (sign == some '-'))
  else if word = "nan" then some .nan
  else none

/-- The floating-point number that a text writes: a numeral with at least one digit before its exponent, or a word
    for a number that is not finite. -/
def float? (s : List Char) : Option Binary64 :=
  match Numeral.read? s with
  | some n => if n.hasDigit then some (.ofNumeral n) else none
  | none => notFinite? s

end ToolScript
