import CircuitDag.Circuit.Query

/-!
# Composition

The operations of a circuit are appended to another one, with its wires mapped to wires of the same
kind.
-/

set_option autoImplicit false

namespace CircuitDag.Circuit

/-- The wire order that maps qubits to the first qubits and classical bits to the first classical
bits. -/
def defaultOrder (c other : Circuit) : List WireId :=
  List.range other.numQubits ++ (List.range other.numClbits).map (c.numQubits + ·)

/-- Checks that distinct wires of the right kind are given for the wires of another circuit from
`source` on; `seen` holds the wires before them. -/
def checkOrder (c other : Circuit) : WireId → List WireId → List WireId →
    Except ValidationError Unit
  | _, _, [] => .ok ()
  | source, seen, wire :: wires =>
      if c.numWires ≤ wire then .error (.wireOutOfRange wire 0 c.numWires none)
      else if wire ∈ seen then .error (.duplicateWire wire none)
      else if other.isQuantum source ≠ c.isQuantum wire then
        .error (.wireKindMismatch source wire)
      else checkOrder c other (source + 1) (wire :: seen) wires

def validateOrder (c other : Circuit) (order : List WireId) : Except ValidationError Unit :=
  if order.length ≠ other.numWires then
    .error (.arityMismatch "compose" "wire mappings" other.numWires order.length)
  else checkOrder c other 0 [] order

def mapWire (order : List WireId) (wire : WireId) : WireId := order.getD wire 0

/-- Appends all operations of another circuit, wires mapped by an order or else in the default way,
and adds its global phase. -/
def append (other : Circuit) (order? : Option (List WireId) := none) : Edit Unit := do
  let c ← get
  let order := order?.getD (c.defaultOrder other)
  require (c.validateOrder other order)
  other.topologicalOperations.forM fun (_, r) =>
    discard <| addOperation r.operation (r.quantumWires.map (mapWire order))
      (r.classicalWires.map (mapWire order))
  modify fun c => c.setGlobalPhase (c.globalPhase + other.globalPhase)

def compose (c other : Circuit) (order? : Option (List WireId) := none) :
    Except CircuitError Circuit :=
  match (append other order?).run c with
  | .ok _ composed => .ok composed
  | .error cause _ => .error cause

end CircuitDag.Circuit
