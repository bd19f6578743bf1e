import CircuitDag.Number.Binary64

/-!
# Decimal numbers

A decimal is a natural coefficient times a power of ten. This module turns decimals into doubles
with a single rounding, and finds the shortest decimal that reads back as a given double.
-/

set_option autoImplicit false

namespace CircuitDag

/-- The number `coefficient * 10 ^ exponent`. -/
structure Decimal where
  coefficient : Nat
  exponent : Int
deriving DecidableEq, Repr

namespace Decimal

/-- The number of decimal digits of a natural number; one for zero. -/
def digitCount (n : Nat) : Nat := (Nat.toDigits 10 n).length

/-- Strips up to `fuel` trailing zeros. -/
def strip : Nat → Decimal → Decimal
  | 0, d => d
  | fuel + 1, d =>
      if d.coefficient ≠ 0 ∧ d.coefficient % 10 = 0 then
        strip fuel ⟨d.coefficient / 10, d.exponent + 1⟩
      else d

def normalize (d : Decimal) : Decimal := strip (digitCount d.coefficient) d

/-- The exponent of the first digit, as in scientific notation. -/
def scientificExponent (d : Decimal) : Int := d.exponent + digitCount d.coefficient - 1

/-- The double nearest to a decimal, ties to even; infinite when the decimal is too large. -/
def toBinary64 (d : Decimal) : Binary64 :=
  if d.coefficient = 0 then Binary64.zero
  else if 310 ≤ d.scientificExponent then Binary64.infinity
  else if d.scientificExponent ≤ -330 then Binary64.zero
  else Binary64.ofFloat (Float.ofScientific d.coefficient (d.exponent < 0) d.exponent.natAbs)

/-- Which of two equally near decimals is taken. -/
inductive Tie where
  /-- The one whose last digit is even. -/
  | even
  /-- The larger one. -/
  | up
deriving DecidableEq, Repr

end Decimal

/-- A positive real interval around a double, over a common denominator. The reals strictly
between `low / denominator` and `high / denominator` round to the double, and so do the two ends
when `closed` holds. -/
structure RoundingInterval where
  low : Nat
  value : Nat
  high : Nat
  denominator : Nat
  closed : Bool

namespace RoundingInterval

/-- The interval of a positive finite double. Magnitudes are counted in quarters of the last
place: the upper neighbour is four quarters away, the lower one four or, at a power of two, two. -/
def ofBinary64 (x : Binary64) : RoundingInterval :=
  let quarters := 4 * x.significand
  let below := if x.isPowerBoundary then 1 else 2
  let power := x.scale - 2
  let numerator := Nat.pow 2 power.toNat
  { low := (quarters - below) * numerator
    value := quarters * numerator
    high := (quarters + 2) * numerator
    denominator := Nat.pow 2 (-power).toNat
    closed := x.significand % 2 = 0 }

/-- The same interval measured in units of `10 ^ exponent`. -/
def inUnitsOf (i : RoundingInterval) (exponent : Int) : RoundingInterval :=
  let up := Nat.pow 10 (-exponent).toNat
  { i with
    low := i.low * up
    value := i.value * up
    high := i.high * up
    denominator := i.denominator * Nat.pow 10 exponent.toNat }

def contains (i : RoundingInterval) (n : Nat) : Bool :=
  let point := n * i.denominator
  if i.closed then i.low ≤ point && point ≤ i.high else i.low < point && point < i.high

/-- The multiple of the unit in the interval that is nearest to the value, if the interval holds
one of the two multiples around the value. -/
def nearest? (i : RoundingInterval) (tie : Decimal.Tie) : Option Nat :=
  let lower := i.value / i.denominator
  let rest := 2 * (i.value % i.denominator)
  match i.contains lower, i.contains (lower + 1) with
  | false, false => none
  | true, false => some lower
  | false, true => some (lower + 1)
  | true, true =>
      if rest < i.denominator then some lower
      else if i.denominator < rest then some (lower + 1)
      else match tie with
        | .up => some (lower + 1)
        | .even => some (if lower % 2 = 0 then lower else lower + 1)

/-- One more than the exponent of the value's first decimal digit. -/
def pointPosition (i : RoundingInterval) : Int :=
  if i.denominator ≤ i.value then Decimal.digitCount (i.value / i.denominator)
  else
    let inverse := Decimal.digitCount (i.denominator / i.value)
    if i.denominator ≤ i.value * Nat.pow 10 (inverse - 1) then 2 - (inverse : Int)
    else 1 - (inverse : Int)

end RoundingInterval

/-- The shortest decimal that reads back as a double's magnitude, and of those the nearest to it.
Seventeen digits are always enough. -/
def Decimal.shortest (tie : Decimal.Tie) (x : Binary64) : Decimal :=
  if x.significand = 0 then ⟨0, 0⟩
  else
    let interval := RoundingInterval.ofBinary64 x
    let position := interval.pointPosition
    let candidate (digits : Nat) : Option Decimal :=
      let exponent := position - digits
      ((interval.inUnitsOf exponent).nearest? tie).map fun n => ⟨n, exponent⟩
    match (List.range 17).findSome? fun digits => candidate (digits + 1) with
    | some decimal => decimal.normalize
    | none => ⟨0, 0⟩

end CircuitDag
