import CircuitDag.Circuit.Basic
import CircuitDag.Graph.Indexed

/-!
# How large circuits get

The graph of a circuit has a largest number of vertices and of edges, and a call that needs one more
panics. Construction is told with these limits here; the edits of a circuit are told without them.
-/

set_option autoImplicit false

namespace CircuitDag.Circuit

/-- The vertices and the edges of a circuit can all be numbered. -/
def fits (c : Circuit) : Bool :=
  c.graph.numVertices ≤ Graph.maxSize && c.graph.numEdges ≤ Graph.maxSize

/-- Goes on with a circuit that has grown, unless its graph had no number left for what was added.
What adds more than one vertex or edge only makes the graph larger, so it is enough to look at the
end of it. -/
def orPanic {ε : Type} (c : Circuit) : Except (Failure ε) Circuit :=
  if c.fits then .ok c else .error .panic

/-- An array of machine words has fewer entries than this, so that its size in bytes is a positive
machine integer. -/
def arrayLimit : Nat := Nat.pow 2 60

/-- Makes a circuit without operations. The anchors of the wires are kept in two arrays, which are
made first. Wires whose number is not even a machine word are too many as well. -/
def create {ε : Type} (numQubits numClbits : Nat) (globalPhase : Binary64 := Binary64.zero) :
    Except (Failure ε) Circuit := do
  if arrayLimit ≤ numQubits + numClbits then throw .panic
  let wires := List.range (numQubits + numClbits)
  let c : Circuit := { numQubits, numClbits, globalPhase }
  let c ← wires.foldlM (fun c wire => (c.pushInput wire).orPanic) c
  let c ← wires.foldlM (fun c wire => (c.pushOutput wire).orPanic) c
  wires.foldlM (fun c wire => (c.connectAnchors wire).orPanic) c

end CircuitDag.Circuit
