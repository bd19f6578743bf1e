import CircuitDag.Circuit.Basic

/-!
# Changing single operations

An operation is appended before the outputs of its wires or inserted before given vertices; it can
be removed, and its parameters can be replaced. Arguments are checked before anything is written.
-/

set_option autoImplicit false

namespace CircuitDag.Circuit

/-! ## Validation -/

def checkArity (element : Element) (what : String) (expected? : Option Nat) (got : Nat) :
    Except ValidationError Unit :=
  match expected? with
  | none => .ok ()
  | some expected =>
      if expected = got then .ok () else .error (.arityMismatch element.name what expected got)

/-- Checks that wires lie in a range and are not repeated; `seen` holds the wires before them. -/
def checkWires (element : Element) (start stop : WireId) :
    List WireId → List WireId → Except ValidationError (List WireId)
  | seen, [] => .ok seen
  | seen, wire :: wires =>
      if wire < start ∨ stop ≤ wire then
        .error (.wireOutOfRange wire start stop element.name)
      else if wire ∈ seen then .error (.duplicateWire wire element.name)
      else checkWires element start stop (wire :: seen) wires

def validate (c : Circuit) (op : Operation) (qubits clbits : List WireId) :
    Except ValidationError Unit := do
  let element := op.element
  if element.isAnchor then .error (.reservedElement element.name)
  if qubits.isEmpty ∧ clbits.isEmpty then checkArity element "wires" (some 1) 0
  checkArity element "qubits" element.numQubits qubits.length
  checkArity element "clbits" element.numClbits clbits.length
  checkArity element "parameters" element.numParams op.params.length
  let seen ← checkWires element 0 c.numQubits [] qubits
  discard <| checkWires element c.numQubits c.numWires seen clbits

def require {α : Type} (checked : Except ValidationError α) : Edit α :=
  match checked with
  | .ok a => pure a
  | .error cause => throw (.validation cause)

/-- Ends an edit with the error of a look-up. -/
def liftResult {α : Type} (result : Except CircuitError α) : Edit α :=
  match result with
  | .ok a => pure a
  | .error cause => throw cause

/-! ## Adding operations -/

/-- Adds an operation right before the given ports, one for each of its wires. Its number is the
former number of records. -/
def place (c : Circuit) (op : Operation) (qubits clbits : List WireId) (successors : List Port) :
    Circuit :=
  let v := c.records.size
  let c := c.pushVertex op qubits clbits
  let c := ((qubits ++ clbits).zip successors).zipIdx.foldl
    (fun c ((wire, successor), i) => c.spliceBefore ⟨v, i⟩ wire successor) c
  { c with params := c.params.registerAll v op.params }

def outputPorts (c : Circuit) (wires : List WireId) : List Port :=
  wires.filterMap fun wire => (c.output? wire).map fun v => ⟨v, 0⟩

def addOperation (op : Operation) (qubits clbits : List WireId) : Edit VertexId := do
  let c ← get
  require (c.validate op qubits clbits)
  set (c.place op qubits clbits (c.outputPorts (qubits ++ clbits)))
  return c.records.size

/-- A point at which a vertex can be inserted: a port and the vertex before it. -/
structure InsertionPoint where
  successor : Port
  predecessor : VertexId

def insertionPoint (c : Circuit) (v : VertexId) (wire : WireId) :
    Except CircuitError InsertionPoint :=
  match c.records.get? v with
  | none => .error (.invalidVertex v .missing)
  | some r =>
      if r.removed then .error (.invalidVertex v .missing)
      else if r.element = .input then .error (.invalidVertex v .insertBeforeInput)
      else match c.records.wireIndex v wire with
        | .error _ => .error (.validation (.notOnWire v wire))
        | .ok index => do
            let port ← c.records.neighbor .incoming v wire
            return ⟨⟨v, index⟩, port.vertex⟩

/-- Whether a vertex at these points would lie on a cycle: it comes after every predecessor and
before every successor. -/
def closesCycle (c : Circuit) (points : List InsertionPoint) : Bool :=
  points.any fun p => points.any fun q => c.graph.hasPath p.successor.vertex q.predecessor

/-- Inserts an operation right before given vertices, one for each of its wires, and yields its
number. -/
def insertOperation (op : Operation) (before : List VertexId) (qubits clbits : List WireId) :
    Edit VertexId := do
  let c ← get
  require (c.validate op qubits clbits)
  let wires := qubits ++ clbits
  if before.length ≠ wires.length then
    throw (.validation (.arityMismatch op.element.name "insertion points" wires.length
      before.length))
  let points ← liftResult ((before.zip wires).mapM fun (v, wire) => c.insertionPoint v wire)
  if c.closesCycle points then throw (.validation (.wouldCreateCycle before))
  set (c.place op qubits clbits (points.map (·.successor)))
  return c.records.size

/-! ## Removing operations -/

def checkRemovable (c : Circuit) (v : VertexId) : Except CircuitError Record :=
  match c.records.get? v with
  | none => .error (.invalidVertex v .missing)
  | some r =>
      if r.removed then .error (.invalidVertex v .missing)
      else if r.isAnchor then .error (.invalidVertex v .anchorNotRemovable)
      else .ok r

def retire (c : Circuit) (v : VertexId) : Circuit :=
  { c with
    params := c.params.purge v
    records := c.records.tombstone v
    numRemoved := c.numRemoved + 1 }

/-- Runs a change of the records. -/
def editRecords {α : Type} (edit : EStateM CircuitError Records α) : Edit α := do
  let c ← get
  match edit.run c.records with
  | .ok a records => set { c with records }; return a
  | .error cause records => set { c with records }; throw cause

/-- Replaces the edges at a vertex by edges between its neighbours on each wire. -/
def bridgeEdges (c : Circuit) (v : VertexId) : Graph :=
  match c.records.get? v with
  | none => c.graph.clearVertex v
  | some r =>
      r.wires.zipIdx.foldl
        (fun g (wire, i) =>
          match r.port? .incoming i, r.port? .outgoing i with
          | some source, some target => g.addEdge source.vertex target.vertex wire
          | _, _ => g)
        (c.graph.clearVertex v)

/-- Removes an operation; its neighbours on each wire become neighbours. -/
def removeOperation (v : VertexId) : Edit Operation := do
  let c ← get
  let r ← liftResult (c.checkRemovable v)
  editRecords (Records.rewireAcross v)
  modify fun c => { c with graph := c.bridgeEdges v }.retire v
  return r.operation

/-! ## Parameters -/

def setParam (v : VertexId) (position : Nat) (p : Param) : Edit Param := do
  let c ← get
  match if c.records.isLive v then c.records.param? v position else none with
  | none => throw (.invalidVertex v .noParameter)
  | some old =>
      let slot : ParamSlot := ⟨v, position⟩
      set { c with
        params := ((c.params.unregister slot old).2.register slot p).2
        records := c.records.setParam v position p }
      return old

def rebind (c : Circuit) (slot : ParamSlot) (old new : Param) : Circuit :=
  { c with
    params := ((c.params.unregister slot old).2.register slot new).2
    records := c.records.setParam slot.vertex slot.position new }

def slotsOfSymbol (c : Circuit) (name : String) : List (Param × ParamSlot) :=
  c.params.entries.flatMap fun e =>
    if e.param.symbols.contains name then e.slots.map fun slot => (e.param, slot) else []

/-- Puts a number for a symbol everywhere and yields the number of parameters that changed. -/
def bindSymbol (name : String) (number : Binary64) : Edit Nat := do
  let c ← get
  let slots := c.slotsOfSymbol name
  set (slots.foldl (fun c (p, slot) => c.rebind slot p (p.bind name number)) c)
  return slots.length

def setGlobalPhase (c : Circuit) (phase : Binary64) : Circuit := { c with globalPhase := phase }

end CircuitDag.Circuit
