import CircuitDag.Graph
import CircuitDag.ParamTable

/-!
# Circuits

A circuit is a set of quantum and classical wires with operations on them. Its vertices are
records with ports to their neighbours on each wire; the same segments of wires are the edges of a
graph, and a table tells where symbolic parameters occur. Every wire runs from an input anchor to
an output anchor.
-/

set_option autoImplicit false

namespace CircuitDag

structure Circuit where
  numQubits : Nat := 0
  numClbits : Nat := 0
  globalPhase : Binary64 := Binary64.zero
  records : Records := Records.empty
  graph : Graph := Graph.empty
  params : ParamTable := ParamTable.empty
  /-- The input anchor of each wire. -/
  inputs : Array VertexId := #[]
  /-- The output anchor of each wire. -/
  outputs : Array VertexId := #[]
  /-- How many vertices have been removed since the last compaction. -/
  numRemoved : Nat := 0
deriving DecidableEq

/-- A change of a circuit. A change that fails hands back the circuit as it then is. -/
abbrev Edit := EStateM CircuitError Circuit

namespace Circuit

def numWires (c : Circuit) : Nat := c.numQubits + c.numClbits

def isQuantum (c : Circuit) (wire : WireId) : Bool := wire < c.numQubits

def numVertices (c : Circuit) : Nat := c.records.size - c.numRemoved

def numEdges (c : Circuit) : Nat := c.graph.numEdges

def text (c : Circuit) : String :=
  s!"circuit \x7bnq={c.numQubits}, ncl={c.numClbits}, nv={c.numVertices}, ne={c.numEdges}\x7d"

def input? (c : Circuit) (wire : WireId) : Option VertexId := c.inputs[wire]?

def output? (c : Circuit) (wire : WireId) : Option VertexId := c.outputs[wire]?

/-- Adds a vertex without neighbours; its number is the former number of records. -/
def pushVertex (c : Circuit) (op : Operation) (qubits clbits : List WireId) : Circuit :=
  { c with
    records := c.records.push (Record.unwired op qubits clbits)
    graph := c.graph.addVertex }

def pushAnchor (c : Circuit) (element : Element) (wire : WireId) : Circuit :=
  if c.isQuantum wire then c.pushVertex { element } [wire] []
  else c.pushVertex { element } [] [wire]

def connect (c : Circuit) (source target : Port) (wire : WireId) : Circuit :=
  { c with
    records := c.records.link source target
    graph := c.graph.addEdge source.vertex target.vertex wire }

/-- Puts a port on a wire, right before the port `successor`. -/
def spliceBefore (c : Circuit) (port : Port) (wire : WireId) (successor : Port) : Circuit :=
  let c := match c.records.port? .incoming successor.vertex successor.index with
    | some predecessor =>
        { c with graph := c.graph.removeEdge predecessor.vertex successor.vertex wire }.connect
          predecessor port wire
    | none => c
  c.connect port successor wire

def pushInput (c : Circuit) (wire : WireId) : Circuit :=
  { c.pushAnchor .input wire with inputs := c.inputs.push c.records.size }

def pushOutput (c : Circuit) (wire : WireId) : Circuit :=
  { c.pushAnchor .output wire with outputs := c.outputs.push c.records.size }

/-- Makes the two anchors of a wire neighbours. -/
def connectAnchors (c : Circuit) (wire : WireId) : Circuit :=
  match c.input? wire, c.output? wire with
  | some source, some target => c.connect ⟨source, 0⟩ ⟨target, 0⟩ wire
  | _, _ => c

/-- The circuit without operations on some wires. All inputs are numbered before all outputs. -/
def blank (numQubits numClbits : Nat) (globalPhase : Binary64 := Binary64.zero) : Circuit :=
  let wires := List.range (numQubits + numClbits)
  let c : Circuit := { numQubits, numClbits, globalPhase }
  let c := wires.foldl pushInput c
  let c := wires.foldl pushOutput c
  wires.foldl connectAnchors c

instance : Inhabited Circuit := ⟨blank 0 0⟩

/-- The circuit without operations on the same wires, with the same phase. -/
def blankLike (c : Circuit) : Circuit := blank c.numQubits c.numClbits c.globalPhase

def pushWire (c : Circuit) (wire : WireId) : Circuit :=
  ((c.pushInput wire).pushOutput wire).connectAnchors wire

/-- Adds a qubit. Qubits come before classical bits, so there must be none of those. -/
def addQubit : Edit WireId := do
  let c ← get
  if 0 < c.numClbits then
    throw (.validation (.classicalWiresPresent c.numClbits))
  else
    set ({ c with numQubits := c.numQubits + 1 }.pushWire c.numQubits)
    return c.numQubits

def addClbit : Edit WireId := do
  let c ← get
  set ({ c with numClbits := c.numClbits + 1 }.pushWire c.numWires)
  return c.numWires

end Circuit

end CircuitDag
