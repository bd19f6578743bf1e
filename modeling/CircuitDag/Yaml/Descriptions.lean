import CircuitDag.Description.Basic
import CircuitDag.Yaml.Value

/-!
# Reading descriptions in YAML

A number among the parameters stands for itself and a string for the symbol of that name. Every
other parameter is a mapping with one pair, whose key names or numbers a constructor.
-/

set_option autoImplicit false

namespace CircuitDag

open Yaml

namespace Param

/-- The constructors of parameters, in the order in which they are numbered. -/
inductive Form where
  | value
  | symbol
  | pi
  | neg
  | binary (make : Param → Param → Param)

def forms : List (String × Form) :=
  [("Value", .value), ("Symbol", .symbol), ("Pi", .pi), ("Neg", .neg), ("Add", .binary add),
    ("Sub", .binary sub), ("Mul", .binary mul), ("Div", .binary div)]

/-- The constructor that a key names or numbers. A minus sign numbers none, not even the first. -/
def formOfKey? : Value → Option Form
  | .scalar (.string name) => forms.lookup name
  | .scalar (.nat n) => (forms[n]?).map (·.2)
  | _ => none

/-- The number that a scalar stands for. An integer that is zero makes a positive zero. -/
def numberOfScalar? : ScalarValue → Option Binary64
  | .nat n => some (Binary64.ofNat n)
  | .negated n => some (if n = 0 then Binary64.zero else -Binary64.ofNat n)
  | .float x => some x
  | _ => none

mutual

def ofYaml? : Value → Option Param
  | .scalar (.string name) => if name = "Pi" then some pi else none
  | .scalar _ => none
  | .sequence _ => none
  | .mapping pairs => ofYamlPairs? pairs

/-- The expression of a mapping, which has one pair. -/
def ofYamlPairs? : List (Value × Value) → Option Param
  | [(key, content)] =>
      match formOfKey? key, content with
      | some .value, .scalar s => (numberOfScalar? s).map value
      | some .symbol, .scalar (.string name) => some (symbol name)
      | some .pi, .scalar .null => some pi
      | some .neg, content => (ofYaml? content).map neg
      | some (.binary make), .sequence items =>
          (ofYamlItems? items).map fun (a, b) => make a b
      | _, _ => none
  | _ => none

def ofYamlItems? : List Value → Option (Param × Param)
  | [a, b] => do return (← ofYaml? a, ← ofYaml? b)
  | _ => none

end

end Param

namespace ParamDescription

def ofYaml? : Value → Option ParamDescription
  | .scalar (.string name) => some (symbol name)
  | .scalar s => (Param.numberOfScalar? s).map number
  | value => (Param.ofYaml? value).map expression

def read (depth : Nat) (node : Node Nat) : Reading ParamDescription := do
  Reading.lift (ofYaml? (← Value.ofNode (maxDepth - depth) node))

end ParamDescription

namespace OperationDescription

def read (depth : Nat) (node : Node Nat) : Reading OperationDescription := do
  let [some gate, qubits?, clbits?, params?] ←
    Reading.fields ["gate", "wires", "clbits", "params"] node | failure
  return {
    gate := ← Reading.text gate
    qubits := ← Reading.withDefault [] (Reading.list Reading.nat) qubits?
    clbits := ← Reading.withDefault [] (Reading.list Reading.nat) clbits?
    params := ← Reading.withDefault [] (Reading.list (ParamDescription.read (depth + 2)))
      params? }

end OperationDescription

namespace CircuitDescription

def read (node : Node Nat) : Reading CircuitDescription := do
  let [some numQubits, numClbits?, globalPhase?, operations?] ←
    Reading.fields ["num_qubits", "num_clbits", "global_phase", "ops"] node | failure
  return {
    numQubits := ← Reading.nat numQubits
    numClbits := ← Reading.withDefault 0 Reading.nat numClbits?
    globalPhase := ← Reading.withDefault Binary64.zero Reading.float globalPhase?
    operations := ← Reading.withDefault [] (Reading.list (OperationDescription.read 2))
      operations? }

def ofYamlText? (text : String) : Option CircuitDescription := Reading.run? read text

end CircuitDescription

end CircuitDag
