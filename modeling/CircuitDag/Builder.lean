import CircuitDag.Circuit.Capacity
import CircuitDag.Circuit.Compose

/-!
# Building circuits

A call is an operation together with the wires it is applied to. A builder appends calls to a
circuit and remembers the vertex that it added last.
-/

set_option autoImplicit false

namespace CircuitDag

/-- An operation and the wires it is applied to. Classical bits are given by their wires. -/
structure Call where
  operation : Operation
  qubits : List WireId
  clbits : List WireId := []
deriving DecidableEq

namespace Call

def plain (element : Element) (qubits : List WireId) : Call := ⟨{ element }, qubits, []⟩

def withParams (element : Element) (params : List Param) (qubits : List WireId) : Call :=
  ⟨{ element, params? := some params }, qubits, []⟩

def h (q : WireId) : Call := plain .h [q]

def x (q : WireId) : Call := plain .x [q]

def y (q : WireId) : Call := plain .y [q]

def z (q : WireId) : Call := plain .z [q]

def s (q : WireId) : Call := plain .s [q]

def t (q : WireId) : Call := plain .t [q]

def reset (q : WireId) : Call := plain .reset [q]

def rx (theta : Param) (q : WireId) : Call := withParams .rx [theta] [q]

def ry (theta : Param) (q : WireId) : Call := withParams .ry [theta] [q]

def rz (theta : Param) (q : WireId) : Call := withParams .rz [theta] [q]

def u (theta phi lambda : Param) (q : WireId) : Call := withParams .u [theta, phi, lambda] [q]

def cx (control target : WireId) : Call := plain .cx [control, target]

def cz (control target : WireId) : Call := plain .cz [control, target]

def swap (a b : WireId) : Call := plain .swap [a, b]

def cp (theta : Param) (control target : WireId) : Call :=
  withParams .cp [theta] [control, target]

def ccx (control₁ control₂ target : WireId) : Call := plain .ccx [control₁, control₂, target]

def measure (q clbit : WireId) : Call := ⟨{ element := .measure }, [q], [clbit]⟩

/-- A barrier on the first `numQubits` wires. -/
def barrier (numQubits : Nat) : Call := plain .barrier (List.range numQubits)

end Call

/-- A circuit under construction. -/
structure Builder where
  circuit : Circuit
  /-- The vertex added last. -/
  last? : Option VertexId := none
deriving DecidableEq

/-- A step of a construction. A step that fails keeps what was built before. -/
abbrev Build := EStateM (Failure CircuitError) Builder

namespace Builder

def ofCircuit (circuit : Circuit) : Builder := { circuit }

def create (numQubits numClbits : Nat) : Except (Failure CircuitError) Builder := do
  return ofCircuit (← Circuit.create numQubits numClbits)

def apply (call : Call) : Build Unit := do
  let b ← get
  match (Circuit.addOperation call.operation call.qubits call.clbits).run b.circuit with
  | .ok v circuit =>
      if circuit.fits then set ({ circuit, last? := some v } : Builder) else throw .panic
  | .error cause circuit => set { b with circuit }; throw (.error cause)

def applyAll (calls : List Call) : Build Unit := calls.forM apply

def barrierAll : Build Unit := do apply (Call.barrier (← get).circuit.numQubits)

end Builder

/-- Builds a circuit of some calls. They are listed only if there is room for the wires. -/
@[macro_inline] def Circuit.ofCalls (numQubits numClbits : Nat) (calls : List Call) :
    Except (Failure CircuitError) Circuit := do
  let b ← Builder.create numQubits numClbits
  match (Builder.applyAll calls).run b with
  | .ok _ b => .ok b.circuit
  | .error failure _ => .error failure

end CircuitDag
