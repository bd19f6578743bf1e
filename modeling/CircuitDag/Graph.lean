import CircuitDag.Port

/-!
# Wire segments as a graph

A directed multigraph whose edges are wire segments. Edges are listed by age, which gives the order
in which the neighbours of a vertex are met: the newest first. Besides, every edge has a slot; when
an edge is removed, the edge in the last slot takes its place. The order of slots decides in which
order a compacted graph receives its edges.

Vertices are taken here as they are numbered. What a call does that names a vertex by any number,
and where the numbers end, is told in `CircuitDag.Graph.Indexed`.
-/

set_option autoImplicit false

namespace CircuitDag

/-- An edge of the graph. The stamp tells edges apart that agree in all else. -/
structure Edge where
  source : VertexId
  target : VertexId
  wire : WireId
  stamp : Nat
deriving DecidableEq, Repr

/-- A multigraph over the vertices `0, …, numVertices - 1`. -/
structure Graph where
  numVertices : Nat := 0
  /-- The edges, the newest first. -/
  edges : List Edge := []
  /-- The stamps of the edges, in order of slots. -/
  slots : List Nat := []
  /-- The stamp of the next edge. -/
  nextStamp : Nat := 0
deriving DecidableEq

namespace Graph

def empty : Graph := {}

instance : Inhabited Graph := ⟨empty⟩

/-- Adds a vertex, whose number is the former number of vertices. -/
def addVertex (g : Graph) : Graph := { g with numVertices := g.numVertices + 1 }

def numEdges (g : Graph) : Nat := g.edges.length

def addEdge (g : Graph) (source target : VertexId) (wire : WireId) : Graph :=
  { g with
    edges := ⟨source, target, wire, g.nextStamp⟩ :: g.edges
    slots := g.slots ++ [g.nextStamp]
    nextStamp := g.nextStamp + 1 }

def addEdge? (g : Graph) (source target : VertexId) (wire : WireId) : Option Graph :=
  if source < g.numVertices ∧ target < g.numVertices then some (g.addEdge source target wire)
  else none

/-- Removes an element from a list of slots; the last element takes its place. -/
def swapRemove (stamp : Nat) (slots : List Nat) : List Nat :=
  match slots.getLast? with
  | none => []
  | some last =>
      if last = stamp then slots.dropLast else slots.dropLast.replace stamp last

def eraseEdge (g : Graph) (e : Edge) : Graph :=
  { g with edges := g.edges.erase e, slots := swapRemove e.stamp g.slots }

def findEdge? (g : Graph) (source target : VertexId) (wire : WireId) : Option Edge :=
  g.edges.find? fun e => e.source = source && e.target = target && e.wire = wire

def hasEdge (g : Graph) (source target : VertexId) (wire : WireId) : Bool :=
  (g.findEdge? source target wire).isSome

/-- Removes the newest edge between two vertices on a wire, if there is one. -/
def removeEdge (g : Graph) (source target : VertexId) (wire : WireId) : Graph :=
  match g.findEdge? source target wire with
  | some e => g.eraseEdge e
  | none => g

/-- The edges into a vertex, the newest first. -/
def edgesInto (g : Graph) (v : VertexId) : List Edge := g.edges.filter (·.target = v)

/-- The edges out of a vertex, the newest first. -/
def edgesOutOf (g : Graph) (v : VertexId) : List Edge := g.edges.filter (·.source = v)

/-- The sources and wires of the edges into a vertex, the newest first. -/
def inEdges (g : Graph) (v : VertexId) : List (VertexId × WireId) :=
  (g.edgesInto v).map fun e => (e.source, e.wire)

/-- The targets and wires of the edges out of a vertex, the newest first. -/
def outEdges (g : Graph) (v : VertexId) : List (VertexId × WireId) :=
  (g.edgesOutOf v).map fun e => (e.target, e.wire)

def inDegree (g : Graph) (v : VertexId) : Nat := (g.edgesInto v).length

def outDegree (g : Graph) (v : VertexId) : Nat := (g.edgesOutOf v).length

/-- Removes the edges into a vertex and then those out of it, each time the newest first. -/
def clearVertex (g : Graph) (v : VertexId) : Graph :=
  let inner := (g.edgesInto v).foldl eraseEdge g
  (inner.edgesOutOf v).foldl eraseEdge inner

/-- Takes vertices from the front of the queue. Each edge out of a vertex that is taken lowers the
number of edges its target waits for, and a target that waits for none joins the queue. -/
def drain (g : Graph) : Nat → List VertexId → Array Nat → List VertexId
  | 0, _, _ => []
  | _ + 1, [], _ => []
  | fuel + 1, v :: queue, waiting =>
      let (waiting, freed) := (g.outEdges v).foldl
        (fun (waiting, freed) (t, _) =>
          let waiting := waiting.modify t (· - 1)
          (waiting, if waiting[t]? = some 0 then freed ++ [t] else freed))
        (waiting, [])
      v :: drain g fuel (queue ++ freed) waiting

/-- The vertices in an order in which every edge leads forward. The order starts with the vertices
without incoming edges that `start` accepts, by number; a vertex follows once all its predecessors
are listed, first freed first. Vertices behind a cycle or behind a start that is not accepted are
left out. No vertex is listed twice, so the number of vertices bounds the work. -/
def topologicalOrder (g : Graph) (start : VertexId → Bool) : List VertexId :=
  let waiting := (Array.range g.numVertices).map g.inDegree
  let sources := (List.range g.numVertices).filter fun v => start v && waiting[v]? = some 0
  g.drain g.numVertices sources waiting

/-- Whether some edges form a cycle; an edge from a vertex to itself is one. -/
def isCyclic (g : Graph) : Bool :=
  (g.topologicalOrder fun _ => true).length ≠ g.numVertices

/-- Looks for a vertex among those reachable from a stack of vertices. -/
def search (g : Graph) (goal : VertexId) : Nat → List VertexId → List VertexId → Bool
  | 0, _, _ => false
  | _ + 1, [], _ => false
  | fuel + 1, v :: stack, seen =>
      if v = goal then true
      else if seen.contains v then search g goal fuel stack seen
      else search g goal fuel ((g.outEdges v).map (·.1) ++ stack) (v :: seen)

/-- Whether a vertex is reached from another one along edges; every vertex reaches itself. Each
vertex is expanded once, so at most one vertex per edge joins the stack. -/
def hasPath (g : Graph) (source target : VertexId) : Bool :=
  g.search target (g.numEdges + 2) [source] []

def edgesBySlot (g : Graph) : List Edge :=
  g.slots.filterMap fun stamp => g.edges.find? (·.stamp = stamp)

/-- The graph on `numVertices` vertices with all edges whose two ends have a new number, added in
order of slots. -/
def renumber (g : Graph) (numVertices : Nat) (target? : VertexId → Option VertexId) : Graph :=
  g.edgesBySlot.foldl
    (fun out e =>
      match target? e.source, target? e.target with
      | some s, some t => out.addEdge s t e.wire
      | _, _ => out)
    { numVertices }

end Graph

end CircuitDag
