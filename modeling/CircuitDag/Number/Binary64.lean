/-!
# Double-precision numbers

A number is held as its sixty-four bits, so that equality is decidable and tells the two zeros
apart. Arithmetic goes through `Float`; the decomposition of a finite number into an integer
significand and a power of two is exact.
-/

set_option autoImplicit false

namespace CircuitDag

/-- A double-precision number, given by its bits: one sign bit, eleven exponent bits and
fifty-two fraction bits. -/
structure Binary64 where
  bits : UInt64
deriving DecidableEq, Hashable

namespace Binary64

def zero : Binary64 := ⟨0⟩

instance : Inhabited Binary64 := ⟨zero⟩

/-- The not-a-number that stands for every one read from outside. -/
def nan : Binary64 := ⟨0x7ff8000000000000⟩

/-- The not-a-number that an invalid operation yields; its sign bit is set. -/
def invalid : Binary64 := ⟨0xfff8000000000000⟩

def infinity : Binary64 := ⟨0x7ff0000000000000⟩

def negInfinity : Binary64 := ⟨0xfff0000000000000⟩

def pi : Binary64 := ⟨0x400921fb54442d18⟩

/-- The sign bit; set for negative numbers and for negative zero. -/
def isNegative (x : Binary64) : Bool := Nat.pow 2 63 ≤ x.bits.toNat

/-- The biased exponent. -/
def biasedExponent (x : Binary64) : Nat := x.bits.toNat / Nat.pow 2 52 % Nat.pow 2 11

def fraction (x : Binary64) : Nat := x.bits.toNat % Nat.pow 2 52

def isFinite (x : Binary64) : Bool := x.biasedExponent < 2047

def isInfinite (x : Binary64) : Bool := x.biasedExponent = 2047 && x.fraction = 0

def isNaN (x : Binary64) : Bool := x.biasedExponent = 2047 && x.fraction ≠ 0

def isZero (x : Binary64) : Bool := x.biasedExponent = 0 && x.fraction = 0

/-- The integer significand of a finite number, the hidden bit included. -/
def significand (x : Binary64) : Nat :=
  if x.biasedExponent = 0 then x.fraction else x.fraction + Nat.pow 2 52

/-- The power of two by which `significand` is scaled. -/
def scale (x : Binary64) : Int :=
  if x.biasedExponent = 0 then -1074 else (x.biasedExponent : Int) - 1075

/-- Whether the gap to the next smaller magnitude is half the gap to the next larger one. -/
def isPowerBoundary (x : Binary64) : Bool := x.fraction = 0 && 1 < x.biasedExponent

def toFloat (x : Binary64) : Float := Float.ofBits x.bits

/-- The result of an operation on numbers; every not-a-number becomes the invalid result. -/
def ofFloat (f : Float) : Binary64 := if f.isNaN then invalid else ⟨f.toBits⟩

def ofUInt64 (n : UInt64) : Binary64 := ofFloat n.toFloat

def ofNat (n : Nat) : Binary64 := ofUInt64 n.toUInt64

/-- Negation flips the sign bit, also of zero and of a not-a-number. -/
def neg (x : Binary64) : Binary64 := ⟨x.bits ^^^ 0x8000000000000000⟩

/-- A binary operation: an operand that is not a number is passed on, the left one first. -/
def binary (f : Float → Float → Float) (x y : Binary64) : Binary64 :=
  if x.isNaN then x else if y.isNaN then y else ofFloat (f x.toFloat y.toFloat)

def add : Binary64 → Binary64 → Binary64 := binary (· + ·)

def sub : Binary64 → Binary64 → Binary64 := binary (· - ·)

def mul : Binary64 → Binary64 → Binary64 := binary (· * ·)

def div : Binary64 → Binary64 → Binary64 := binary (· / ·)

instance : Neg Binary64 := ⟨neg⟩
instance : Add Binary64 := ⟨add⟩
instance : Sub Binary64 := ⟨sub⟩
instance : Mul Binary64 := ⟨mul⟩
instance : Div Binary64 := ⟨div⟩

/-- Numeric equality: the two zeros are equal, and a not-a-number equals nothing. -/
def sameValue (x y : Binary64) : Bool :=
  if x.isNaN || y.isNaN then false else x == y || (x.isZero && y.isZero)

/-- Numeric order; false whenever an operand is not a number. -/
def le (x y : Binary64) : Bool := decide (x.toFloat ≤ y.toFloat)

def abs (x : Binary64) : Binary64 := if x.isNegative then x.neg else x

/-- The nearest whole number, a half going away from zero. -/
def round (x : Binary64) : Binary64 := if x.isNaN then x else ofFloat x.toFloat.round

/-- The double `2`. -/
def two : Binary64 := ⟨0x4000000000000000⟩

end Binary64

end CircuitDag
