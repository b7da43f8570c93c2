import ToolScript.Number.Shortest

/-! # Written forms of floating-point numbers

    The shortest decimal of a number is laid out positionally or with an exponent. A `FloatLayout` says which, and
    how; two of them are in use, one for JSON and one for messages. -/

namespace ToolScript

/-- The choices in writing a floating-point number. -/
structure FloatLayout where
  tie : Tie
  /-- Whether a number `d.ddd * 10 ^ e` is written without an exponent. -/
  positional : Int → Bool
  /-- What is written after a whole number that has no exponent. -/
  wholeEnd : String

/-- The layout in JSON: positional from 10^-5 to below 10^16, always with a point or an exponent. -/
def FloatLayout.json : FloatLayout where
  tie := .toEven
  positional e := decide (-5 ≤ e) && decide (e ≤ 15)
  wholeEnd := ".0"

/-- The layout in messages: always positional, and whole numbers without a point. -/
def FloatLayout.plain : FloatLayout where
  tie := .up
  positional _ := true
  wholeEnd := ""

def dropTrailingZeros (digits : List Char) : List Char :=
  (digits.reverse.dropWhile (· == '0')).reverse

/-- Digits with the point after the first `e + 1` of them, filled up with zeros on either side. -/
def positionalText (layout : FloatLayout) (digits : List Char) (e : Int) : String :=
  if e < 0 then
    "0." ++ String.ofList (List.replicate ((-e).toNat - 1) '0' ++ digits)
  else
    let whole := digits.take (e.toNat + 1)
    let fraction := digits.drop (e.toNat + 1)
    let filled := String.ofList (whole ++ List.replicate (e.toNat + 1 - whole.length) '0')
    if fraction.isEmpty then filled ++ layout.wholeEnd else filled ++ "." ++ String.ofList fraction

/-- Digits with the point after the first, and a signed exponent. -/
def exponentText (digits : List Char) (e : Int) : String :=
  let mantissa := match digits with
    | [] => ""
    | [d] => String.ofList [d]
    | d :: fraction => String.ofList (d :: '.' :: fraction)
  let power := String.ofList (decimalDigits e.natAbs)
  mantissa ++ (if e < 0 then "e-" else "e+") ++ power

def Magnitude.text (layout : FloatLayout) (m : Magnitude) : String :=
  let d := m.shortest layout.tie
  if d.digits = 0 then "0" ++ layout.wholeEnd
  else
    let digits := decimalDigits d.digits
    let e := d.power + (digits.length : Int) - 1
    let digits := dropTrailingZeros digits
    if layout.positional e then positionalText layout digits e else exponentText digits e

/-- The written form of a number. -/
def Binary64.text (layout : FloatLayout) : Binary64 → String
  | .finite negative m => (if negative then "-" else "") ++ m.text layout
  | .infinite negative => if negative then "-inf" else "inf"
  | .nan => "NaN"

end ToolScript
