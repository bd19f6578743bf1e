import CircuitDag.Circuit.Query

/-!
# Checking a circuit

`Circuit.check` looks for a violated invariant: the anchors of the wires, the wires and ports of
every vertex, the graph beside the ports, acyclicity, the walk along each wire and the parameter
table, in this order.
-/

set_option autoImplicit false

namespace CircuitDag.Circuit

def checkAnchor (c : Circuit) (element : Element) (wire : WireId) (v : VertexId) :
    Except IntegrityError Unit :=
  match c.records.get? v with
  | none => .error ⟨.missingAnchor element, v, wire⟩
  | some r =>
      if r.removed ∨ r.element ≠ element then .error ⟨.missingAnchor element, v, wire⟩
      else if r.wires ≠ [wire] then .error ⟨.anchorWires wire r.wires, v, none⟩
      else .ok ()

def checkAnchors (c : Circuit) : Except IntegrityError Unit := do
  if c.inputs.size ≠ c.numWires ∨ c.outputs.size ≠ c.numWires then
    .error ⟨.anchorCount c.numWires c.inputs.size c.outputs.size, none, none⟩
  (c.inputs.toList.zip c.outputs.toList).zipIdx.forM fun ((input, output), wire) => do
    c.checkAnchor .input wire input
    c.checkAnchor .output wire output

/-- The element at which a wire has no neighbour on a side. -/
def endElement : Side → Element
  | .incoming => .input
  | .outgoing => .output

/-- Checks that the port at a wire position is there exactly when it should be, that it stands on
the same wire of a live vertex, and that the port there points back. -/
def checkPort (c : Circuit) (v : VertexId) (r : Record) (index : Nat) (wire : WireId)
    (side : Side) : Except IntegrityError Unit :=
  match r.port? side index, decide (r.element = endElement side) with
  | none, true => .ok ()
  | some port, false =>
      let target? := if c.records.isLive port.vertex then c.records.get? port.vertex else none
      if target?.bind (·.wires[port.index]?) ≠ some wire then
        .error ⟨.portTarget side wire port, v, wire⟩
      else
        let back? := c.records.port? side.opposite port.vertex port.index
        if back? = some ⟨v, index⟩ then .ok ()
        else .error ⟨.portReturn side ⟨v, index⟩ back?, port.vertex, wire⟩
  | found?, _ => .error ⟨.portPresence side found?, v, wire⟩

def checkEdge (c : Circuit) (v : VertexId) (r : Record) (index : Nat) (wire : WireId) :
    Except IntegrityError Unit :=
  match r.port? .incoming index with
  | none => .ok ()
  | some port =>
      if c.graph.hasEdge port.vertex v wire then .ok ()
      else .error ⟨.missingEdge port.vertex v, v, wire⟩

/-- Checks the wires of a vertex from a position on; `seen` holds the wires before it. -/
def checkWirePositions (c : Circuit) (v : VertexId) (r : Record) :
    Nat → List WireId → List WireId → Except IntegrityError Unit
  | _, _, [] => .ok ()
  | index, seen, wire :: wires => do
      if c.numWires ≤ wire ∨ decide (index < r.numQuantum) ≠ c.isQuantum wire then
        .error ⟨.misplacedWire, v, wire⟩
      if wire ∈ seen then .error ⟨.repeatedWire, v, wire⟩
      c.checkPort v r index wire .incoming
      c.checkPort v r index wire .outgoing
      c.checkEdge v r index wire
      checkWirePositions c v r (index + 1) (wire :: seen) wires

def checkVertex (c : Circuit) (v : VertexId) (r : Record) : Except IntegrityError Unit :=
  if r.removed then
    if r.wires.isEmpty ∧ c.graph.inDegree v + c.graph.outDegree v = 0 then .ok ()
    else .error ⟨.removedButWired, v, none⟩
  else if r.wires.isEmpty then .error ⟨.noWires, v, none⟩
  else c.checkWirePositions v r 0 [] r.wires

def checkVertices (c : Circuit) : Except IntegrityError Unit :=
  c.records.rows.toList.zipIdx.forM fun (r, v) => c.checkVertex v r

/-- The number of ports that lead to a vertex before theirs. -/
def numLinks (c : Circuit) : Nat :=
  (c.records.live.flatMap fun (_, r) => r.inPorts).countP Option.isSome

/-- Checks that the graph has no edges beside those that ports stand for, and no cycle. -/
def checkGraph (c : Circuit) : Except IntegrityError Unit := do
  if c.graph.numEdges ≠ c.numLinks then
    .error ⟨.edgeCount c.numLinks c.graph.numEdges, none, none⟩
  if c.graph.isCyclic then .error ⟨.cyclic, none, none⟩

def numCarriers (c : Circuit) (wire : WireId) : Nat :=
  c.records.live.countP fun (_, r) => r.wires.contains wire

/-- Checks that the walk along a wire meets every vertex that carries it and ends at its output.
A walk that is too long is cut off. -/
def checkWalk (c : Circuit) (wire : WireId) (output : VertexId) : Except IntegrityError Unit :=
  let carried := c.numCarriers wire
  let visited := (c.wireVertices wire).take (carried + 1)
  if visited.getLast? = some output ∧ visited.length = carried then .ok ()
  else .error ⟨.pathCovering carried output visited.length visited.getLast?, none, wire⟩

def checkParams (c : Circuit) : Except IntegrityError Unit := c.params.check c.records

def check (c : Circuit) : Except IntegrityError Unit := do
  c.checkAnchors
  c.checkVertices
  c.checkGraph
  c.outputs.toList.zipIdx.forM fun (output, wire) => c.checkWalk wire output
  c.checkParams

end CircuitDag.Circuit
