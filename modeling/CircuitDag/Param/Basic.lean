import CircuitDag.Number.Binary64
import CircuitDag.Sorted

/-!
# Gate parameters

A parameter is a number or an expression over named symbols. Numbers are compared by their bits,
so that parameters can serve as keys.
-/

set_option autoImplicit false

namespace CircuitDag

/-- A numeric or symbolic gate parameter. -/
inductive Param where
  /-- A number. -/
  | value (number : Binary64)
  /-- A named symbol. -/
  | symbol (name : String)
  /-- The constant π. -/
  | pi
  | neg (operand : Param)
  | add (left right : Param)
  | sub (left right : Param)
  | mul (left right : Param)
  | div (left right : Param)
deriving DecidableEq, Inhabited

namespace Param

def isSymbolic : Param → Bool
  | value _ | pi => false
  | symbol _ => true
  | neg p => p.isSymbolic
  | add a b | sub a b | mul a b | div a b => a.isSymbolic || b.isSymbolic

/-- The numeric value of a parameter without symbols; a quotient by zero has none. -/
def eval? : Param → Option Binary64
  | value v => some v
  | symbol _ => none
  | pi => some Binary64.pi
  | neg p => p.eval?.map (-·)
  | add a b => do return (← a.eval?) + (← b.eval?)
  | sub a b => do return (← a.eval?) - (← b.eval?)
  | mul a b => do return (← a.eval?) * (← b.eval?)
  | div a b => do
      let divisor ← b.eval?
      if divisor.isZero then none else return (← a.eval?) / divisor

/-- All occurrences of symbols, from left to right. -/
def symbolOccurrences : Param → List String
  | value _ | pi => []
  | symbol name => [name]
  | neg p => p.symbolOccurrences
  | add a b | sub a b | mul a b | div a b => a.symbolOccurrences ++ b.symbolOccurrences

/-- The names of all symbols, without repetition, in order of code points. -/
def symbols (p : Param) : List String :=
  sortedSet (fun a b => decide (a < b)) p.symbolOccurrences

/-- A parameter without symbols becomes its value, where it has one. -/
def fold (p : Param) : Param :=
  match p.eval? with
  | some v => value v
  | none => p

/-- Puts a number for every occurrence of a symbol. Composite expressions that become numeric are
folded to their value. -/
def bind (name : String) (number : Binary64) : Param → Param
  | value v => value v
  | symbol s => if s = name then value number else symbol s
  | pi => pi
  | neg p => (neg (p.bind name number)).fold
  | add a b => (add (a.bind name number) (b.bind name number)).fold
  | sub a b => (sub (a.bind name number) (b.bind name number)).fold
  | mul a b => (mul (a.bind name number) (b.bind name number)).fold
  | div a b => (div (a.bind name number) (b.bind name number)).fold

/-- The distance of two angles that differ by `difference` from the nearest whole number of
turns. -/
def distanceFromTurn (difference : Binary64) : Binary64 :=
  let turns := difference / (Binary64.two * Binary64.pi)
  (turns - turns.round).abs * Binary64.two * Binary64.pi

/-- Whether two parameters are the same angle up to whole turns and a tolerance. Parameters
without a value are compared as expressions. -/
def approxEqTurn (p q : Param) (tolerance : Binary64) : Bool :=
  match p.eval?, q.eval? with
  | some a, some b => (distanceFromTurn (a - b)).le tolerance
  | none, none => p == q
  | _, _ => false

end Param

end CircuitDag
