import CircuitDag.Json.Basic

/-!
# The value of JSON numbers

Whole numerals without an exponent are exact up to sixty-four bits. All other numerals are read as
a significand of at most sixty-four bits that is scaled by a power of ten; digits that do not fit
are dropped, and the scaling rounds. Doubles are written with the fewest digits that denote them.
-/

set_option autoImplicit false

namespace CircuitDag

/-- The leading digits of a numeral as a number below two to the sixty-fourth, and the power of ten
by which it is scaled. -/
structure Significand where
  digits : Nat
  exponent : Int
deriving DecidableEq, Repr

namespace Significand

def limit : Nat := UInt64.size

/-- Appends the digits before a point. From the first one on that does not fit, digits only count
for the exponent. -/
def appendWhole (s : Significand) : List Char → Significand
  | [] => s
  | c :: rest =>
      let next := 10 * s.digits + (c.toNat - '0'.toNat)
      if next < limit then appendWhole { s with digits := next } rest
      else { s with exponent := s.exponent + (c :: rest).length }

/-- Appends the digits behind a point, up to the first one that does not fit. -/
def appendPlaces (s : Significand) : List Char → Significand
  | [] => s
  | c :: rest =>
      let next := 10 * s.digits + (c.toNat - '0'.toNat)
      if next < limit then appendPlaces ⟨next, s.exponent - 1⟩ rest else s

def ofNumeral (t : DecimalText) : Significand :=
  let s := ((⟨0, 0⟩ : Significand).appendWhole t.whole).appendPlaces t.places
  { s with exponent := s.exponent + t.exponent?.getD 0 }

/-- A power of ten as a double; it is rounded once. -/
def powerOfTen (n : Nat) : Binary64 := Decimal.toBinary64 ⟨1, n⟩

def maxPower : Nat := 308

/-- Divides by `10 ^ n`, in at most `fuel` steps before the last one. A number that has become zero
stays zero. -/
def scaleDown : Nat → Binary64 → Nat → Binary64
  | 0, f, _ => f
  | fuel + 1, f, n =>
      if n ≤ maxPower then f / powerOfTen n
      else if f.isZero then f
      else scaleDown fuel (f / powerOfTen maxPower) (n - maxPower)

/-- The double that a significand is read as; `none` if it is too large. Three steps down reach zero
from every significand. -/
def toBinary64? (s : Significand) : Option Binary64 :=
  let f := Binary64.ofNat s.digits
  if s.exponent < 0 then some (scaleDown 4 f s.exponent.natAbs)
  else if s.exponent.natAbs ≤ maxPower then
    let scaled := f * powerOfTen s.exponent.natAbs
    if scaled.isInfinite then none else some scaled
  else if f.isZero then some f
  else none

end Significand

namespace Json

def isWholeNumeral (t : DecimalText) : Bool := t.places.isEmpty && t.exponent?.isNone

def numeralMagnitude? (t : DecimalText) : Option Binary64 :=
  (Significand.ofNumeral t).toBinary64?

def toBinary64? : Json → Option Binary64
  | number t => (numeralMagnitude? t).map fun x => if t.negative then -x else x
  | _ => none

/-- A natural number of at most sixty-four bits, written without a sign, a point and an
exponent. -/
def toNat? : Json → Option Nat
  | number t =>
      let n := Decimal.digitsValue t.whole
      if !t.negative && isWholeNumeral t && decide (n < Significand.limit) then some n else none
  | _ => none

/-- The shortest digits; the even neighbour of two equally near ones. Numbers are positional from
`1e-5` up to `1e16`. -/
def decimalFormat : DecimalFormat :=
  { tie := .even, positional := some (-5, 15), pointZero := true, positiveSign := ['+']
    infinity := "null", negInfinity := "null", nan := "null" }

/-- A double as a value; those that are not finite are null. -/
def ofBinary64 (x : Binary64) : Json :=
  if x.isFinite then number (decimalFormat.layout x) else null

end Json

end CircuitDag
