import CircuitDag.Description.Basic

/-!
# The parts of descriptions

The numbers and parameters in a description, and what becomes of them when it is written and read
again: a parameter that is π as a whole is written as a string, like a symbol, and strings are read
as symbols.
-/

set_option autoImplicit false

namespace CircuitDag

/-- All numbers in a parameter. -/
def Param.numbers : Param → List Binary64
  | value v => [v]
  | symbol _ | pi => []
  | neg p => p.numbers
  | add a b | sub a b | mul a b | div a b => a.numbers ++ b.numbers

namespace ParamDescription

def numbers (p : ParamDescription) : List Binary64 := p.toParam.numbers

/-- What a parameter has become when it is read back: π is read as a symbol. -/
def readBack : ParamDescription → ParamDescription
  | expression .pi => symbol "Pi"
  | p => p

end ParamDescription

def OperationDescription.readBack (op : OperationDescription) : OperationDescription :=
  { op with params := op.params.map ParamDescription.readBack }

namespace CircuitDescription

/-- All parameters, in the order of the operations. -/
def params (d : CircuitDescription) : List ParamDescription := d.operations.flatMap (·.params)

def numbers (d : CircuitDescription) : List Binary64 :=
  d.globalPhase :: d.params.flatMap ParamDescription.numbers

def readBack (d : CircuitDescription) : CircuitDescription :=
  { d with operations := d.operations.map OperationDescription.readBack }

/-- All counts and wires fit a machine word. -/
structure WordSized (d : CircuitDescription) : Prop where
  numQubits : d.numQubits < UInt64.size
  numClbits : d.numClbits < UInt64.size
  qubits : ∀ op ∈ d.operations, ∀ w ∈ op.qubits, w < UInt64.size
  clbits : ∀ op ∈ d.operations, ∀ w ∈ op.clbits, w < UInt64.size

end CircuitDescription

end CircuitDag
