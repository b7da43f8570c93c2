import ToolScript.Number.Binary64
import ToolScript.Number.Integer

/-! # The shortest decimal of a floating-point number

    A magnitude stands for all real numbers that round to it: half the way to its two neighbours, the ends
    included when its significand is even. The shortest decimal is found on the coarsest grid of powers of ten
    that has a point in this interval, and is the point nearest to the magnitude. The arithmetic is exact. -/

namespace ToolScript

/-- Which of two decimals equally near to a number is taken. -/
inductive Tie where
  | toEven
  | up
  deriving DecidableEq

/-- The number `digits * 10 ^ power`. -/
structure Decimal where
  digits : Nat
  power : Int
  deriving DecidableEq

/-- The real numbers that round to a magnitude, all over one denominator. -/
structure Interval where
  low : Nat
  mid : Nat
  high : Nat
  den : Nat
  closed : Bool

namespace Magnitude

/-- The interval of a magnitude: its neighbours are a unit of its scale away, half a unit below where the scale
    changes. -/
def interval (m : Magnitude) : Interval where
  low := (4 * m.significand - (if m.significand = 1 <<< 52 ∧ m.scale ≠ 0 then 1 else 2)) <<< (m.scale - 1076)
  mid := (4 * m.significand) <<< (m.scale - 1076)
  high := (4 * m.significand + 2) <<< (m.scale - 1076)
  den := 1 <<< (1076 - m.scale)
  closed := m.significand % 2 = 0

end Magnitude

namespace Interval

/-- The interval measured in units of `10 ^ power`. -/
def inUnits (i : Interval) (power : Int) : Interval :=
  if power ≥ 0 then { i with den := i.den * powTen power.toNat }
  else
    let k := powTen (-power).toNat
    { i with low := i.low * k, mid := i.mid * k, high := i.high * k }

/-- Whether a natural number lies in the interval. -/
def contains (i : Interval) (n : Nat) : Bool :=
  if i.closed then decide (i.low ≤ n * i.den) && decide (n * i.den ≤ i.high)
  else decide (i.low < n * i.den) && decide (n * i.den < i.high)

/-- The natural number in the interval that is nearest to its middle. -/
def nearest? (tie : Tie) (i : Interval) : Option Nat :=
  let below := i.mid / i.den
  let above := below + 1
  match i.contains below, i.contains above with
  | false, false => none
  | true, false => some below
  | false, true => some above
  | true, true =>
    let down := i.mid - below * i.den
    let up := above * i.den - i.mid
    if down < up then some below
    else if up < down then some above
    else match tie with
      | .toEven => some (if below % 2 = 0 then below else above)
      | .up => some above

/-- The point of the coarsest grid from `10 ^ power` down that lies in the interval, nearest to its middle. -/
def coarsest (tie : Tie) (i : Interval) : Nat → Int → Decimal
  | 0, power => ⟨i.mid / i.den, power⟩
  | steps + 1, power =>
    match (i.inUnits power).nearest? tie with
    | some n => ⟨n, power⟩
    | none => coarsest tie i steps (power - 1)

end Interval

/-- The shortest decimal that reads back as the magnitude. A grid above the magnitude is at hand from its binary
    digits, and seventeen decimal digits tell any two magnitudes apart. -/
def Magnitude.shortest (tie : Tie) (m : Magnitude) : Decimal :=
  if m.significand = 0 then ⟨0, 0⟩
  else
    let bits : Int := (m.significand.log2 : Int) + m.scale - 1073
    m.interval.coarsest tie 40 (Int.fdiv (bits * 30103) 100000 + 2)

end ToolScript
