/-! # Integers

    The decimal digits of natural numbers, powers of ten, and the ranges of integers of 64 bits. -/

namespace ToolScript

/-- The number that a row of ASCII digits writes. -/
def digitsValue (digits : List Char) : Nat :=
  digits.foldl (fun n c => 10 * n + (c.toNat - '0'.toNat)) 0

/-- The decimal digits of a number, at least one. -/
def decimalDigits (n : Nat) : List Char :=
  Nat.toDigits 10 n

/-- A power of ten by its exponent. -/
def powTen (exponent : Nat) : Nat :=
  Nat.pow 10 exponent

/-- The least and the greatest signed integer of 64 bits, and the greatest unsigned one. -/
def minInt64 : Int := -0x8000000000000000
def maxInt64 : Int := 0x7fffffffffffffff
def maxUInt64 : Int := 0xffffffffffffffff

/-- Whether an integer is in the signed range of 64 bits. -/
def isInt64 (n : Int) : Bool :=
  decide (minInt64 ≤ n) && decide (n ≤ maxInt64)

end ToolScript
