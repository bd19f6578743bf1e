import CircuitDag.Circuit.Capacity
import CircuitDag.Circuit.Compose

/-!
# Descriptions of circuits

A description lists the operations of a circuit in an order in which they can be applied. Gates are
given by name and classical bits are numbered from zero. `CircuitDescription.toCircuit` makes the
circuit, `CircuitDescription.ofCircuit` lists one.
-/

set_option autoImplicit false

namespace CircuitDag

/-- The text formats of descriptions. -/
inductive Format where
  | json
  | yaml
deriving DecidableEq, Repr

namespace Format

/-- The format that a file name extension stands for; the case of ASCII letters is ignored. -/
def ofExtension? (extension : String) : Option Format :=
  match String.ofList (extension.toList.map Char.toLower) with
  | "json" => some json
  | "yaml" | "yml" => some yaml
  | _ => none

def name : Format → String
  | json => "JSON"
  | yaml => "YAML"

end Format

/-- A parameter as it is described: a number and a symbol stand for themselves. -/
inductive ParamDescription where
  | number (value : Binary64)
  | symbol (name : String)
  | expression (param : Param)
deriving DecidableEq

namespace ParamDescription

def toParam : ParamDescription → Param
  | number v => .value v
  | symbol s => .symbol s
  | expression p => p

def ofParam : Param → ParamDescription
  | .value v => number v
  | .symbol s => symbol s
  | p => expression p

/-- Equality of described parameters; plain numbers are compared by value. -/
def agrees : ParamDescription → ParamDescription → Bool
  | number v, number w => v.sameValue w
  | symbol s, symbol t => s == t
  | expression p, expression q => p == q
  | _, _ => false

end ParamDescription

structure OperationDescription where
  gate : String
  qubits : List Nat := []
  clbits : List Nat := []
  params : List ParamDescription := []
deriving DecidableEq

structure CircuitDescription where
  numQubits : Nat
  numClbits : Nat := 0
  globalPhase : Binary64 := Binary64.zero
  operations : List OperationDescription := []
deriving DecidableEq

/-- Why a description cannot be read, written or built. -/
inductive DescriptionError where
  /-- The text is not a description in this format, or the description has no text in it. -/
  | malformed (format : Format)
  | unknownGate (name : String) (index : Nat)
  | clbitOutOfRange (clbit numClbits index : Nat)
  /-- The operation at `index` was refused. -/
  | refused (index : Nat) (cause : CircuitError)
deriving DecidableEq

def DescriptionError.message : DescriptionError → String
  | malformed format => s!"{format.name} error"
  | unknownGate name index => s!"Unknown gate '{name}' in operation {index}"
  | clbitOutOfRange clbit numClbits index =>
      s!"Classical bit {clbit} out of range (num_clbits = {numClbits}) in operation {index}"
  | refused index cause => s!"Operation {index}: {cause.message}"

/-- Equality of described operations, numbers compared by value. -/
def OperationDescription.agrees (a b : OperationDescription) : Bool :=
  a.gate == b.gate && a.qubits == b.qubits && a.clbits == b.clbits &&
    a.params.length == b.params.length &&
    (a.params.zip b.params).all fun (p, q) => p.agrees q

/-- Equality of descriptions, numbers compared by value. -/
def CircuitDescription.agrees (a b : CircuitDescription) : Bool :=
  a.numQubits == b.numQubits && a.numClbits == b.numClbits &&
    a.globalPhase.sameValue b.globalPhase &&
    a.operations.length == b.operations.length &&
    (a.operations.zip b.operations).all fun (p, q) => p.agrees q

namespace OperationDescription

/-- The operation described, given its element. An empty parameter list counts as none. -/
def operation (d : OperationDescription) (element : Element) : Operation :=
  { element
    params? :=
      if d.params.isEmpty then none else some (d.params.map ParamDescription.toParam) }

def classicalWires (d : OperationDescription) (numQubits numClbits index : Nat) :
    Except DescriptionError (List WireId) :=
  d.clbits.mapM fun clbit =>
    if clbit < numClbits then .ok (numQubits + clbit)
    else .error (.clbitOutOfRange clbit numClbits index)

def ofRecord (numQubits : Nat) (r : Record) : OperationDescription :=
  { gate := r.element.name
    qubits := r.quantumWires
    clbits := r.classicalWires.map (· - numQubits)
    params := r.params.map ParamDescription.ofParam }

end OperationDescription

namespace CircuitDescription

def addDescribed (d : CircuitDescription) (c : Circuit) (op : OperationDescription)
    (index : Nat) : Except DescriptionError Circuit := do
  let some element := Element.ofName? op.gate | .error (.unknownGate op.gate index)
  let clbits ← op.classicalWires d.numQubits d.numClbits index
  match (Circuit.addOperation (op.operation element) op.qubits clbits).run c with
  | .ok _ c => .ok c
  | .error cause _ => .error (.refused index cause)

/-- Makes the circuit, however large it gets. -/
def build (d : CircuitDescription) : Except DescriptionError Circuit :=
  d.operations.zipIdx.foldlM (fun c (op, index) => d.addDescribed c op index)
    (Circuit.blank d.numQubits d.numClbits d.globalPhase)

/-- Adds an operation as long as the graph of the circuit has numbers left. -/
def addNumbered (d : CircuitDescription) (c : Circuit) (op : OperationDescription)
    (index : Nat) : Except (Failure DescriptionError) Circuit := do
  let c ← (d.addDescribed c op index).mapError .error
  c.orPanic

/-- Makes the circuit; panics when its graph has no number left. -/
def toCircuit (d : CircuitDescription) : Except (Failure DescriptionError) Circuit := do
  let c ← Circuit.create d.numQubits d.numClbits d.globalPhase
  d.operations.zipIdx.foldlM (fun c (op, index) => d.addNumbered c op index) c

/-- The description of a circuit, its operations in topological order. -/
def ofCircuit (c : Circuit) : CircuitDescription :=
  { numQubits := c.numQubits
    numClbits := c.numClbits
    globalPhase := c.globalPhase
    operations := c.topologicalOperations.map fun (_, r) =>
      OperationDescription.ofRecord c.numQubits r }

end CircuitDescription

end CircuitDag
