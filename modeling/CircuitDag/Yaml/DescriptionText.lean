import CircuitDag.Description.Basic
import CircuitDag.Yaml.Block

/-!
# Writing descriptions in YAML

Numbers and symbols among the parameters stand for themselves. Expressions are tagged with their
constructors. A tag cannot stand before another one, so the operand of a negation must be π.
-/

set_option autoImplicit false

namespace CircuitDag

open Yaml

/-- The shortest digits; the even neighbour of two equally near ones. Numbers are positional from
`1e-5` up to `1e16`. -/
def Yaml.decimalFormat : DecimalFormat :=
  { tie := .even, positional := some (-5, 15), pointZero := true
    infinity := ".inf", negInfinity := "-.inf", nan := ".nan" }

def Yaml.Block.ofNumber (tag? : Option String) (x : Binary64) : Block :=
  .numeral tag? (Yaml.decimalFormat.write x)

def Yaml.Block.ofNat (n : Nat) : Block := .numeral none (toString n)

namespace Param

/-- An expression, if it can be written. -/
def toBlock? : Param → Option Block
  | value v => some (.ofNumber (some "Value") v)
  | symbol name => some (.string (some "Symbol") name)
  | pi => some (.string none "Pi")
  | neg pi => some (.string (some "Neg") "Pi")
  | neg _ => none
  | add a b => do return .sequence (some "Add") [← a.toBlock?, ← b.toBlock?]
  | sub a b => do return .sequence (some "Sub") [← a.toBlock?, ← b.toBlock?]
  | mul a b => do return .sequence (some "Mul") [← a.toBlock?, ← b.toBlock?]
  | div a b => do return .sequence (some "Div") [← a.toBlock?, ← b.toBlock?]

end Param

/-- A parameter, if it can be written. -/
def ParamDescription.toBlock? : ParamDescription → Option Block
  | number v => some (.ofNumber none v)
  | symbol name => some (.string none name)
  | expression p => p.toBlock?

def Yaml.Block.nonemptyField (name : String) (items : List Block) : List (String × Block) :=
  if items.isEmpty then [] else [(name, .sequence none items)]

/-- An operation, if its parameters can be written. -/
def OperationDescription.toBlock? (d : OperationDescription) : Option Block := do
  let params ← d.params.mapM ParamDescription.toBlock?
  return .mapping <|
    [("gate", .string none d.gate), ("wires", .sequence none (d.qubits.map .ofNat))] ++
      Block.nonemptyField "clbits" (d.clbits.map .ofNat) ++ Block.nonemptyField "params" params

/-- The text of a description, if its parameters can be written. -/
def CircuitDescription.yamlText? (d : CircuitDescription) : Option String := do
  let operations ← d.operations.mapM OperationDescription.toBlock?
  return Block.documentText
    [("num_qubits", .ofNat d.numQubits), ("num_clbits", .ofNat d.numClbits),
      ("global_phase", .ofNumber none d.globalPhase), ("ops", .sequence none operations)]

end CircuitDag
