import CircuitDag.Number.Decimal

/-!
# Decimal text

`DecimalText` is a decimal numeral in its parts. `DecimalFormat` holds the decisions of one way to
write doubles: `DecimalFormat.layout` lays a finite double out as a numeral and
`DecimalFormat.write` gives its text. `DecimalText.ofText?` reads numerals.
-/

set_option autoImplicit false

namespace CircuitDag

def Decimal.digitsValue (digits : List Char) : Nat :=
  digits.foldl (fun n c => 10 * n + (c.toNat - '0'.toNat)) 0

/-- A decimal numeral: a sign, the digits before the point, the digits after it, and an exponent if
one is written. -/
structure DecimalText where
  negative : Bool := false
  whole : List Char
  places : List Char := []
  exponent? : Option Int := none
deriving DecidableEq

namespace DecimalText

/-- The number that a numeral denotes, its sign put aside. -/
def magnitude (t : DecimalText) : Decimal :=
  ⟨Decimal.digitsValue (t.whole ++ t.places), t.exponent?.getD 0 - t.places.length⟩

/-- The characters of an exponent, given what stands before positive ones. -/
def exponentChars (positiveSign : List Char) (exponent : Int) : List Char :=
  'e' :: (if exponent < 0 then ['-'] else positiveSign) ++ Nat.toDigits 10 exponent.natAbs

def chars (positiveSign : List Char) (t : DecimalText) : List Char :=
  (if t.negative then ['-'] else []) ++ t.whole ++
    (if t.places.isEmpty then [] else '.' :: t.places) ++
    match t.exponent? with
    | none => []
    | some exponent => exponentChars positiveSign exponent

/-- An exponent at the end of a numeral: nothing, or `e` with an optional sign and digits. -/
def exponentOfText? : List Char → Option (Option Int)
  | [] => some none
  | c :: rest =>
      if c = 'e' ∨ c = 'E' then
        let (negative, digits) := match rest with
          | '-' :: digits => (true, digits)
          | '+' :: digits => (false, digits)
          | digits => (false, digits)
        if digits.isEmpty ∨ digits.any (fun d => !d.isDigit) then none
        else
          let value : Int := Decimal.digitsValue digits
          some (some (if negative then -value else value))
      else none

/-- An unsigned numeral: digits with at most one point, at least one digit in all, and an optional
exponent. -/
def ofText? (text : List Char) : Option DecimalText :=
  let whole := text.takeWhile Char.isDigit
  let (places, afterPlaces) := match text.dropWhile Char.isDigit with
    | '.' :: rest => (rest.takeWhile Char.isDigit, rest.dropWhile Char.isDigit)
    | rest => ([], rest)
  if whole.isEmpty ∧ places.isEmpty then none
  else (exponentOfText? afterPlaces).map fun exponent? => { whole, places, exponent? }

end DecimalText

/-- The decisions of one way to write doubles. -/
structure DecimalFormat where
  /-- Which of two equally near shortest decimals is written. -/
  tie : Decimal.Tie
  /-- Numbers whose first digit has an exponent in this range are written positionally;
  `none` writes all of them so. -/
  positional : Option (Int × Int)
  /-- Whether whole numbers written positionally end in `.0`. -/
  pointZero : Bool
  /-- What stands before a positive exponent. -/
  positiveSign : List Char := []
  infinity : String
  negInfinity : String
  nan : String

namespace DecimalFormat

/-- Positional notation: all digits, with a point where the exponent puts it. -/
def layoutPositional (format : DecimalFormat) (d : Decimal) : DecimalText :=
  let digits := Nat.toDigits 10 d.coefficient
  if 0 ≤ d.exponent then
    { whole := digits ++ List.replicate d.exponent.toNat '0'
      places := if format.pointZero then ['0'] else [] }
  else
    let places := (-d.exponent).toNat
    if places < digits.length then
      let whole := digits.length - places
      { whole := digits.take whole, places := digits.drop whole }
    else { whole := ['0'], places := List.replicate (places - digits.length) '0' ++ digits }

/-- Scientific notation: one digit before the point, then the exponent. -/
def layoutScientific (d : Decimal) : DecimalText :=
  let digits := Nat.toDigits 10 d.coefficient
  { whole := digits.take 1, places := digits.drop 1, exponent? := some d.scientificExponent }

def layoutDecimal (format : DecimalFormat) (d : Decimal) : DecimalText :=
  match format.positional with
  | none => format.layoutPositional d
  | some (first, last) =>
      if d.coefficient = 0 ∨ (first ≤ d.scientificExponent ∧ d.scientificExponent ≤ last) then
        format.layoutPositional d
      else layoutScientific d

def layout (format : DecimalFormat) (x : Binary64) : DecimalText :=
  { format.layoutDecimal (Decimal.shortest format.tie x) with negative := x.isNegative }

def write (format : DecimalFormat) (x : Binary64) : String :=
  if x.isNaN then format.nan
  else if x.isInfinite then (if x.isNegative then format.negInfinity else format.infinity)
  else String.ofList ((format.layout x).chars format.positiveSign)

/-- Doubles inside messages that quote values: a point is always written, and magnitudes from
`1e16` or below `1e-4` get an exponent. -/
def quoted : DecimalFormat :=
  { tie := .up, positional := some (-4, 15), pointZero := true
    infinity := "inf", negInfinity := "-inf", nan := "NaN" }

/-- Doubles inside running text: positional, with no point in whole numbers. -/
def plain : DecimalFormat :=
  { tie := .up, positional := none, pointZero := false
    infinity := "inf", negInfinity := "-inf", nan := "NaN" }

end DecimalFormat

end CircuitDag
