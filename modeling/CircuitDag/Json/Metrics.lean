import CircuitDag.Json.Elements
import CircuitDag.Pass.Basic

/-!
# Metrics in JSON

The figures of a circuit are a record; counts by element are objects whose keys are the tags of the
elements.
-/

set_option autoImplicit false

namespace CircuitDag

namespace CircuitMetrics

def countsToJson (counts : List (Element × Nat)) : Json :=
  .ofMembers (counts.map fun (e, n) => (e.tag, .ofNat n))

def toJson (m : CircuitMetrics) : Json :=
  .ofMembers
    [("num_qubits", .ofNat m.numQubits), ("num_clbits", .ofNat m.numClbits),
      ("num_vertices", .ofNat m.numVertices), ("num_edges", .ofNat m.numEdges),
      ("num_ops", .ofNat m.numOperations), ("depth", .ofNat m.depth),
      ("num_tensor_factors", .ofNat m.numTensorFactors),
      ("num_parameters", .ofNat m.numParameters),
      ("count_ops", countsToJson m.elementCounts),
      ("count_ops_longest_path", countsToJson m.longestPathCounts)]

/-- The counts of an object, in listing order. The last of several members for an element counts. -/
def countsOfJson? : Json → Option (List (Element × Nat))
  | .object members => do
      let counts ← members.mapM fun (tag?, content) => do
        return (← Element.ofTag? (← tag?), ← content.toNat?)
      return Element.all.filterMap fun e => (counts.reverse.lookup e).map fun n => (e, n)
  | _ => none

def fieldNames : List String :=
  ["num_qubits", "num_clbits", "num_vertices", "num_edges", "num_ops", "depth",
    "num_tensor_factors", "num_parameters", "count_ops", "count_ops_longest_path"]

def ofJson? (content : Json) : Option CircuitMetrics := do
  let fields ← (← content.fields? fieldNames).mapM id
  let [numQubits, numClbits, numVertices, numEdges, numOperations, depth, numTensorFactors,
    numParameters, elementCounts, longestPathCounts] := fields | none
  return {
    numQubits := ← numQubits.toNat?
    numClbits := ← numClbits.toNat?
    numVertices := ← numVertices.toNat?
    numEdges := ← numEdges.toNat?
    numOperations := ← numOperations.toNat?
    depth := ← depth.toNat?
    numTensorFactors := ← numTensorFactors.toNat?
    numParameters := ← numParameters.toNat?
    elementCounts := ← countsOfJson? elementCounts
    longestPathCounts := ← countsOfJson? longestPathCounts }

end CircuitMetrics

end CircuitDag
