import CircuitDag.Circuit.Block
import CircuitDag.Forest

/-!
# Questions about circuits

Neighbours, walks along wires, the topological listing, longest paths, counts of elements and the
number of independent parts.
-/

set_option autoImplicit false

namespace CircuitDag.Circuit

/-- The neighbours of a vertex on one side, in order of its wires. -/
def neighbors (c : Circuit) (side : Side) (v : VertexId) : List VertexId :=
  match c.records.get? v with
  | none => []
  | some r => r.neighbors side

def quantumSuccessors (c : Circuit) (v : VertexId) : List VertexId :=
  match c.records.get? v with
  | none => []
  | some r => (r.outPorts.take r.numQuantum).filterMap fun port? => port?.map Port.vertex

def neighborOn (c : Circuit) (side : Side) (v : VertexId) (wire : WireId) :
    Except CircuitError VertexId :=
  (c.records.neighbor side v wire).map Port.vertex

/-- The vertices on a wire, from its input to its output. -/
def wireVertices (c : Circuit) (wire : WireId) : List VertexId :=
  match c.input? wire with
  | some start => c.records.wireVertices wire start
  | none => []

def element? (c : Circuit) (v : VertexId) : Option Element :=
  (c.records.get? v).map Record.element

def wireElements (c : Circuit) (wire : WireId) : List Element :=
  (c.wireVertices wire).filterMap c.element?

/-- All vertices, every one after its predecessors. -/
def topologicalVertices (c : Circuit) : List VertexId :=
  c.graph.topologicalOrder fun v => !c.records.isRemoved v

/-- The operations with their records, every one after its predecessors. -/
def topologicalOperations (c : Circuit) : List (VertexId × Record) :=
  (c.records.select c.topologicalVertices).filter fun (_, r) => !r.isAnchor

/-! ## Longest paths -/

/-- An element of a list at which a weight is largest; of several, the last. -/
def lastMax? (weight : VertexId → Nat) : List VertexId → Option VertexId
  | [] => none
  | v :: vs =>
      match lastMax? weight vs with
      | none => some v
      | some w => if weight v ≤ weight w then some w else some v

/-- For each vertex the largest number of operations on a path that ends there, and the vertex
before it on such a path. -/
structure PathLengths where
  length : Array Nat
  previous : Array (Option VertexId)

/-- How many operations a vertex adds to a path. -/
def pathWeight (c : Circuit) (v : VertexId) : Nat :=
  match c.records.get? v with
  | none => 0
  | some r => if r.isAnchor then 0 else 1

def extendPath (c : Circuit) (paths : PathLengths) (v : VertexId) : PathLengths :=
  let length (w : VertexId) : Nat := paths.length.getD w 0
  let best? := lastMax? length (c.neighbors .incoming v)
  let before := match best? with
    | some w => length w
    | none => 0
  { length := paths.length.setIfInBounds v (before + c.pathWeight v)
    previous := paths.previous.setIfInBounds v best? }

def pathLengths (c : Circuit) : PathLengths :=
  c.topologicalVertices.foldl c.extendPath
    { length := Array.replicate c.records.size 0
      previous := Array.replicate c.records.size none }

/-- Follows a path backwards; `rest` is the path from the vertex on. -/
def tracePath (previous : Array (Option VertexId)) :
    Nat → VertexId → List VertexId → List VertexId
  | 0, _, rest => rest
  | fuel + 1, v, rest =>
      match previous[v]?.join with
      | some w => tracePath previous fuel w (w :: rest)
      | none => rest

def longestPath (c : Circuit) : List VertexId :=
  let paths := c.pathLengths
  match lastMax? (fun v => paths.length.getD v 0) c.outputs.toList with
  | none => []
  | some last => tracePath paths.previous c.records.size last [last]

def depth (c : Circuit) : Nat :=
  (c.longestPath.filter fun v => c.pathWeight v ≠ 0).length

/-! ## Counts -/

/-- How often each element occurs among the operations of a list of vertices. -/
def countElements (c : Circuit) (vs : List VertexId) : List (Element × Nat) :=
  Element.counts <| ((c.records.select vs).filter fun (_, r) => !r.isAnchor && !r.removed).map
    fun (_, r) => r.element

def elementCounts (c : Circuit) : List (Element × Nat) :=
  c.countElements (List.range c.records.size)

def longestPathCounts (c : Circuit) : List (Element × Nat) := c.countElements c.longestPath

def numOperations (c : Circuit) : Nat :=
  c.records.live.countP fun (_, r) => r.element.kind = .operation

def numParameters (c : Circuit) : Nat := c.params.numParameters

/-! ## Independent parts -/

/-- The wires of a list as places of a forest over `n` wires. -/
def places (n : Nat) (ws : List WireId) : List (Fin n) :=
  ws.filterMap fun w => if inside : w < n then some ⟨w, inside⟩ else none

/-- Trees over the wires; those that operations connect are in one tree. -/
def wireForest (c : Circuit) : Forest c.numWires :=
  c.records.live.foldl
    (fun forest (_, r) => if r.isAnchor then forest else forest.joinAll (places _ r.wires))
    (.discrete c.numWires)

def numTensorFactors (c : Circuit) : Nat := c.wireForest.countRoots

end CircuitDag.Circuit
