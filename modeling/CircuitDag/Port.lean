/-!
# Vertices, wires and ports

Vertices and wires are numbered. A port names one of the wire positions of a vertex; neighbouring
vertices on a wire point at each other's ports.
-/

set_option autoImplicit false

namespace CircuitDag

abbrev VertexId := Nat

/-- The number of a wire; the quantum wires come first. -/
abbrev WireId := Nat

/-- The wire position `index` of a vertex. -/
structure Port where
  vertex : VertexId
  index : Nat
deriving DecidableEq, Repr

def Port.quoted (p : Port) : String :=
  s!"Port \x7b vertex: {p.vertex}, index: {p.index} \x7d"

/-- An edge of the graph as it is stored: the wire it carries. -/
structure WireEdge where
  wire : WireId
deriving DecidableEq, Repr

end CircuitDag
