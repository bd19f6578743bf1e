import CircuitDag.Proofs.Circuit.Meaning
import CircuitDag.Proofs.Circuit.Reachable
import CircuitDag.Proofs.Graph.Listing

/-!
# The listing of the vertices of a circuit

What the topological listing gives on any graph, and on the graph of a circuit.
-/

set_option autoImplicit false

namespace CircuitDag.Circuit

variable {c : Circuit} {line : WireId → List VertexId} {g : Graph}

theorem Layout.mem_topologicalVertices_iff (layout : c.Layout line) (v : VertexId) :
    v ∈ c.topologicalVertices ↔ c.records.isLive v = true := by
  rw [layout.linearizes.mem_iff, Records.isLive_iff]
  constructor
  · intro given
    obtain ⟨w, member⟩ := given
    obtain ⟨r, live, -⟩ := layout.carries member
    exact ⟨r, live⟩
  · intro given
    obtain ⟨r, live⟩ := given
    obtain ⟨w, inside⟩ := List.exists_mem_of_ne_nil _ (layout.wired v r live).nonempty
    exact ⟨w, layout.covered v w ⟨r, live, inside⟩⟩

/-- The listing of a graph that was built by updates is the outcome of the only run of the work on
the queue, in which no counter falls below zero. No vertex is listed twice; a vertex is left out
exactly if it is reached from a cycle or from a vertex without incoming edges that is not accepted;
edges lead forward; and all vertices are listed exactly if there is no cycle. The listing of a
circuit has the live vertices, with those of each wire in the order of the wire. -/
theorem topological_listing_spec (built : g.Built) (start : VertexId → Bool)
    (reachable : c.Reachable) :
    ((∀ order, g.Drains (g.sources start) g.inDegrees order ↔ order = g.topologicalOrder start) ∧
      (g.topologicalOrder start).Nodup ∧
      (∀ v, v ∈ g.topologicalOrder start ↔ v < g.numVertices ∧
        ∀ u, Relation.ReflTransGen g.Joins u v →
          ¬ Relation.TransGen g.Joins u u ∧ (g.inDegree u = 0 → start u = true)) ∧
      (∀ s t, g.Joins s t → t ∈ g.topologicalOrder start →
        Before (g.topologicalOrder start) s t) ∧
      ((g.topologicalOrder fun _ => true).length = g.numVertices ↔
        ∀ v, ¬ Relation.TransGen g.Joins v v)) ∧
    c.topologicalVertices.Nodup ∧
      (∀ v, v ∈ c.topologicalVertices ↔ c.records.isLive v = true) ∧
      ∀ w, (c.wireVertices w).Sublist c.topologicalVertices := by
  have closed := built.closed
  refine ⟨⟨Graph.drains_iff closed, (Graph.topologicalOrder_spec closed start).1,
    fun v => Graph.mem_topologicalOrder_iff closed,
    fun s t joins listed => Graph.before_of_joins closed joins listed,
    Graph.length_topologicalOrder_eq_iff closed⟩, ?_⟩
  obtain ⟨line, layout⟩ := reachable.laidOut
  refine ⟨layout.linearizes.nodup, layout.mem_topologicalVertices_iff, fun w => ?_⟩
  rw [layout.wireVertices_eq]
  exact layout.linearizes.sublist w

/-- After two parallel edges a vertex is listed once; what follows a loop is not listed. -/
theorem topological_listing_behind_a_loop :
    let g := ((Graph.empty.addVertex.addVertex.addVertex.addVertex.addEdge 0 1 0).addEdge
      0 1 1 |>.addEdge 2 2 0).addEdge 2 3 0
    let c := Change.after (blank 1 0 Binary64.zero) (.addOperation { element := .h } [0] [])
    ((∀ order, g.Drains (g.sources fun _ => true) g.inDegrees order ↔ order = [0, 1]) ∧
      ∀ v, v ∈ g.topologicalOrder (fun _ => true) ↔ v < g.numVertices ∧
        ∀ u, Relation.ReflTransGen g.Joins u v →
          ¬ Relation.TransGen g.Joins u u ∧ (g.inDegree u = 0 → true = true)) ∧
    ∀ v, v ∈ c.topologicalVertices ↔ c.records.isLive v = true := by
  intro g c
  have vertices : Graph.empty.addVertex.addVertex.addVertex.addVertex.Built :=
    .addVertex (.addVertex (.addVertex (.addVertex .empty)))
  have built : g.Built :=
    (((vertices.addEdge_of_lt 0 (by decide)).addEdge_of_lt 1 (by decide)).addEdge_of_lt 0
      (by decide)).addEdge_of_lt 0 (by decide)
  have spec := topological_listing_spec built (fun _ => true)
    ((Reachable.blank 1 0 Binary64.zero).change (.addOperation { element := .h } [0] []))
  have listed : g.topologicalOrder (fun _ => true) = [0, 1] := by decide +kernel
  exact ⟨⟨fun order => listed ▸ spec.1.1 order, spec.1.2.2.1⟩, spec.2.2.1⟩

end CircuitDag.Circuit
