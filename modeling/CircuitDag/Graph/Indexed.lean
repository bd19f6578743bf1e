import CircuitDag.Graph

/-!
# Graphs with indices of 32 bits

Vertices and edges are numbered with 32 bits, and the largest of these numbers stands for none. A
caller may name a vertex by any number, but only the lower 32 bits are looked at. For the vertices
that a graph has this is no difference, and the functions of `Graph` itself take them as they are.
-/

set_option autoImplicit false

namespace CircuitDag.Graph

/-- How many vertices a graph can have, and how many edges. -/
def maxSize : Nat := UInt32.size - 1

/-- The vertex that a number stands for. -/
def index (v : VertexId) : VertexId := v % UInt32.size

namespace Indexed

/-- Adds a vertex and yields its number. `none` stands for a panic: no number is left. -/
def addVertex? (g : Graph) : Option (VertexId × Graph) :=
  if g.numVertices < maxSize then some (g.numVertices, g.addVertex) else none

/-- Adds an edge. `none` stands for a panic: no number is left for it, or one of its ends is not a
vertex of the graph. -/
def addEdge? (g : Graph) (source target : VertexId) (wire : WireId) : Option Graph :=
  if g.numEdges < maxSize then g.addEdge? (index source) (index target) wire else none

/-- Removes the newest edge between two vertices on a wire. The answer tells whether there was
one. -/
def removeEdge (g : Graph) (source target : VertexId) (wire : WireId) : Bool × Graph :=
  match g.findEdge? (index source) (index target) wire with
  | some e => (true, g.eraseEdge e)
  | none => (false, g)

def hasEdge (g : Graph) (source target : VertexId) (wire : WireId) : Bool :=
  g.hasEdge (index source) (index target) wire

def hasPath (g : Graph) (source target : VertexId) : Bool :=
  g.hasPath (index source) (index target)

def clearVertex (g : Graph) (v : VertexId) : Graph := g.clearVertex (index v)

def inEdges (g : Graph) (v : VertexId) : List (VertexId × WireId) := g.inEdges (index v)

def outEdges (g : Graph) (v : VertexId) : List (VertexId × WireId) := g.outEdges (index v)

def inDegree (g : Graph) (v : VertexId) : Nat := g.inDegree (index v)

def outDegree (g : Graph) (v : VertexId) : Nat := g.outDegree (index v)

end Indexed

end CircuitDag.Graph
