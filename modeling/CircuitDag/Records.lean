import CircuitDag.Error

/-!
# Vertex records

The vertices of a circuit are kept in an array of records that is indexed by vertex number. A
record holds an operation, the wires it stands on and, for every wire position, the ports of its
neighbours. A removed vertex leaves an empty record behind, so that numbers stay valid.
-/

set_option autoImplicit false

namespace CircuitDag

/-- What is stored about one vertex. The three lists run in parallel over the wire positions; the
first `numQuantum` positions are quantum. -/
structure Record where
  operation : Operation
  wires : List WireId
  numQuantum : Nat
  inPorts : List (Option Port)
  outPorts : List (Option Port)
  removed : Bool := false
deriving DecidableEq, Inhabited

namespace Record

def unwired (op : Operation) (qubits clbits : List WireId) : Record :=
  let blank := List.replicate (qubits.length + clbits.length) none
  { operation := op, wires := qubits ++ clbits, numQuantum := qubits.length
    inPorts := blank, outPorts := blank }

def element (r : Record) : Element := r.operation.element

def params (r : Record) : List Param := r.operation.params

def quantumWires (r : Record) : List WireId := r.wires.take r.numQuantum

def classicalWires (r : Record) : List WireId := r.wires.drop r.numQuantum

def numClassical (r : Record) : Nat := r.wires.length - r.numQuantum

def isAnchor (r : Record) : Bool := r.element.isAnchor

def ports (r : Record) : Side → List (Option Port)
  | .incoming => r.inPorts
  | .outgoing => r.outPorts

def port? (r : Record) (side : Side) (index : Nat) : Option Port := (r.ports side)[index]?.join

/-- The vertices on one side, in order of wire positions. -/
def neighbors (r : Record) (side : Side) : List VertexId :=
  (r.ports side).filterMap fun port? => port?.map Port.vertex

def setPort (r : Record) (side : Side) (index : Nat) (port? : Option Port) : Record :=
  match side with
  | .incoming => { r with inPorts := r.inPorts.set index port? }
  | .outgoing => { r with outPorts := r.outPorts.set index port? }

/-- The record of a removed vertex. Only the element is kept. -/
def tombstone (r : Record) : Record :=
  { operation := { element := r.element }, wires := [], numQuantum := 0
    inPorts := [], outPorts := [], removed := true }

end Record

/-- The records of all vertices, by vertex number. -/
structure Records where
  rows : Array Record
deriving DecidableEq

namespace Records

def empty : Records := ⟨#[]⟩

instance : Inhabited Records := ⟨empty⟩

/-- The number of records, those of removed vertices included. -/
def size (rs : Records) : Nat := rs.rows.size

def get? (rs : Records) (v : VertexId) : Option Record := rs.rows[v]?

def push (rs : Records) (r : Record) : Records := ⟨rs.rows.push r⟩

def modify (rs : Records) (v : VertexId) (f : Record → Record) : Records :=
  ⟨rs.rows.modify v f⟩

def isLive (rs : Records) (v : VertexId) : Bool :=
  match rs.get? v with
  | some r => !r.removed
  | none => false

def isRemoved (rs : Records) (v : VertexId) : Bool :=
  match rs.get? v with
  | some r => r.removed
  | none => false

/-- The vertices that have not been removed, with their records, by increasing number. -/
def live (rs : Records) : List (VertexId × Record) :=
  (List.range rs.size).filterMap fun v =>
    match rs.get? v with
    | some r => if r.removed then none else some (v, r)
    | none => none

def select (rs : Records) (vs : List VertexId) : List (VertexId × Record) :=
  vs.filterMap fun v => (rs.get? v).map fun r => (v, r)

def param? (rs : Records) (v : VertexId) (position : Nat) : Option Param := do
  (← (← rs.get? v).operation.params?)[position]?

/-- Replaces the parameter at a position of a vertex; without one nothing changes. -/
def setParam (rs : Records) (v : VertexId) (position : Nat) (p : Param) : Records :=
  rs.modify v fun r =>
    { r with operation.params? := r.operation.params?.map (·.set position p) }

def wireIndex (rs : Records) (v : VertexId) (wire : WireId) : Except CircuitError Nat :=
  match (rs.get? v).bind (·.wires.idxOf? wire) with
  | some index => .ok index
  | none => .error (.notIncident v wire)

/-- What it means that a port leads nowhere. -/
def noNeighbor : Side → VertexFault
  | .incoming => .noInNeighbor
  | .outgoing => .noOutNeighbor

def port? (rs : Records) (side : Side) (v : VertexId) (index : Nat) : Option Port :=
  (rs.get? v).bind (·.port? side index)

def neighbor (rs : Records) (side : Side) (v : VertexId) (wire : WireId) :
    Except CircuitError Port := do
  let index ← rs.wireIndex v wire
  match rs.port? side v index with
  | some port => .ok port
  | none => .error (.invalidVertex v (noNeighbor side))

def setPort (rs : Records) (side : Side) (at' : Port) (port? : Option Port) : Records :=
  rs.modify at'.vertex (·.setPort side at'.index port?)

def setNeighbor (rs : Records) (side : Side) (v : VertexId) (wire : WireId) (port : Port) :
    Except CircuitError Records := do
  let index ← rs.wireIndex v wire
  return rs.setPort side ⟨v, index⟩ (some port)

def link (rs : Records) (source target : Port) : Records :=
  (rs.setPort .outgoing source (some target)).setPort .incoming target (some source)

/-- Makes the two neighbours at a wire position of a vertex each other's neighbours. -/
def rewirePosition (v : VertexId) (index : Nat) : EStateM CircuitError Records Unit := do
  let rs ← get
  match rs.port? .incoming v index, rs.port? .outgoing v index with
  | some source, some target => set (rs.link source target)
  | _, _ => throw (.invalidVertex v .notSpliced)

/-- Makes the neighbours of a vertex on each of its wires each other's neighbours, one wire position
after the other. The vertex keeps its own ports. An unspliced position ends the work with what has
been done before it. -/
def rewireAcross (v : VertexId) : EStateM CircuitError Records Unit := do
  match (← get).get? v with
  | none => throw (.invalidVertex v .missing)
  | some r =>
      if r.removed then throw (.invalidVertex v .missing)
      else if r.isAnchor then throw (.invalidVertex v .anchorNotRewirable)
      else (List.range r.wires.length).forM (rewirePosition v)

def tombstone (rs : Records) (v : VertexId) : Records := rs.modify v Record.tombstone

/-- The vertex after `v` on a wire. -/
def next? (rs : Records) (wire : WireId) (v : VertexId) : Option VertexId :=
  match rs.neighbor .outgoing v wire with
  | .ok port => some port.vertex
  | .error _ => none

/-- At most `fuel` vertices met on a wire from a vertex on. -/
def walk (rs : Records) (wire : WireId) : Nat → VertexId → List VertexId
  | 0, _ => []
  | fuel + 1, v =>
      v :: match rs.next? wire v with
        | some w => rs.walk wire fuel w
        | none => []

/-- The vertices on a wire from a vertex on; none when the vertex does not carry the wire. A walk
that ends meets no vertex twice, so it is not longer than this bound. -/
def wireVertices (rs : Records) (wire : WireId) (start : VertexId) : List VertexId :=
  match rs.wireIndex start wire with
  | .ok _ => rs.walk wire (rs.size + 1) start
  | .error _ => []

def operations (rs : Records) (accept : Record → Bool) : List VertexId :=
  (rs.live.filter fun (_, r) => accept r && !r.isAnchor).map (·.1)

/-- The live operations on exactly `n` qubits. -/
def qubitOperations (rs : Records) (n : Nat) : List VertexId :=
  rs.operations fun r => r.numQuantum == n

def multiQubitOperations (rs : Records) : List VertexId :=
  rs.operations fun r => 2 ≤ r.numQuantum

/-- The live vertices, anchors included, with one of the given elements. -/
def withElement (rs : Records) (elements : List Element) : List VertexId :=
  (rs.live.filter fun (_, r) => elements.contains r.element).map (·.1)

def numClassicalVertices (rs : Records) : Nat :=
  rs.live.countP fun (_, r) => 0 < r.numClassical

end Records

/-- The leading wires below `numQubits`, and all wires from the first other one on. -/
def unpackWires (wires : List WireId) (numQubits : Nat) : List WireId × List WireId :=
  wires.span (· < numQubits)

end CircuitDag
