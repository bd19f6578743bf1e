import CircuitDag.Graph.Indexed
import CircuitDag.Proofs.Graph.Slots
import Mathlib.Data.Multiset.Filter

/-!
# The edges as a bag

Every update of a graph changes the bag of its edges, each with its source, target and wire, in a
plain way: it adds or takes away one copy, or takes away all copies at a vertex. The two lists of a
vertex tell how many copies there are, and what is removed leaves them in their order. All this is
about the vertices that numbers stand for: a number beyond 32 bits names a vertex that has another
number too.
-/

set_option autoImplicit false

namespace CircuitDag.Graph

variable {g g' : Graph} {s t v : VertexId} {w : WireId}

/-- The edges with how often they occur. -/
def bag (g : Graph) : Multiset (VertexId × VertexId × WireId) := g.segments

theorem count_outEdges (g : Graph) (s t : VertexId) (w : WireId) :
    (g.outEdges s).count (t, w) = g.bag.count (s, t, w) := by
  rw [bag, Multiset.coe_count]
  simp only [outEdges, edgesOutOf, segments, List.count, List.countP_map, List.countP_filter]
  refine List.countP_congr fun e _ => ?_
  simp [Edge.segment, and_comm]

theorem count_inEdges (g : Graph) (s t : VertexId) (w : WireId) :
    (g.inEdges t).count (s, w) = g.bag.count (s, t, w) := by
  rw [bag, Multiset.coe_count]
  simp only [inEdges, edgesInto, segments, List.count, List.countP_map, List.countP_filter]
  refine List.countP_congr fun e _ => ?_
  simp [Edge.segment, and_left_comm, and_comm]

theorem card_bag (g : Graph) : g.bag.card = g.numEdges := List.length_map ..

theorem bag_removeEdge (g : Graph) (s t : VertexId) (w : WireId) :
    (g.removeEdge s t w).bag = g.bag.erase (s, t, w) := by
  rw [bag, segments_removeEdge, bag, Multiset.coe_erase]
  congr 2
  exact lawful_beq_subsingleton _ _

theorem bag_clearVertex (g : Graph) (v : VertexId) :
    (g.clearVertex v).bag = g.bag.filter fun x => x.1 ≠ v ∧ x.2.1 ≠ v := by
  rw [bag, segments_clearVertex, bag, Multiset.filter_coe]

/-! ## Numbers of vertices -/

theorem index_eq_self (word : v < UInt32.size) : index v = v := Nat.mod_eq_of_lt word

theorem removeEdge_index (g : Graph) (s t : VertexId) (w : WireId) : Indexed.removeEdge g s t w =
    (g.hasEdge (index s) (index t) w, g.removeEdge (index s) (index t) w) := by
  rw [Indexed.removeEdge, hasEdge, removeEdge]
  cases g.findEdge? (index s) (index t) w <;> rfl

/-! ## Updates -/

inductive Update where
  | addVertex
  | addEdge (source target : VertexId) (wire : WireId)
  | removeEdge (source target : VertexId) (wire : WireId)
  | clearVertex (v : VertexId)

/-- What an update leaves, unless it panics. -/
def Update.result? (g : Graph) : Update → Option Graph
  | addVertex => (Indexed.addVertex? g).map Prod.snd
  | addEdge s t w => Indexed.addEdge? g s t w
  | removeEdge s t w => some (Indexed.removeEdge g s t w).2
  | clearVertex v => some (Indexed.clearVertex g v)

def Update.onBag (edges : Multiset (VertexId × VertexId × WireId)) :
    Update → Multiset (VertexId × VertexId × WireId)
  | addVertex => edges
  | addEdge s t w => (index s, index t, w) ::ₘ edges
  | removeEdge s t w => edges.erase (index s, index t, w)
  | clearVertex v => edges.filter fun x => x.1 ≠ index v ∧ x.2.1 ≠ index v

/-- When an update panics: no number is left for what it adds, or it adds an edge at a number that
stands for no vertex. -/
def Update.Panics (g : Graph) : Update → Prop
  | addVertex => maxSize ≤ g.numVertices
  | addEdge s t _ =>
      maxSize ≤ g.numEdges ∨ ¬ (index s < g.numVertices ∧ index t < g.numVertices)
  | removeEdge .. | clearVertex _ => False

variable {update : Update} {updates : List Update}

theorem Update.result?_eq_none_iff : update.result? g = none ↔ update.Panics g := by
  cases update with
  | addVertex => simp [result?, Indexed.addVertex?, Panics]
  | addEdge s t w =>
      rw [result?, Indexed.addEdge?, Graph.addEdge?, Panics, ← Nat.not_lt, ← not_and_or]
      split <;> simp_all
  | removeEdge s t w => simp [result?, Panics]
  | clearVertex v => simp [result?, Panics]

theorem Update.step (slotted : g.Slotted) (few : g.numVertices ≤ maxSize)
    (applied : update.result? g = some g') :
    g'.Slotted ∧ g'.numVertices ≤ maxSize ∧ g'.bag = update.onBag g.bag := by
  cases update with
  | addVertex =>
      obtain ⟨⟨v, g₁⟩, added, rfl⟩ := Option.map_eq_some_iff.mp applied
      obtain ⟨room, same⟩ := Option.ite_none_right_eq_some.mp added
      cases same
      exact ⟨slotted.addVertex, room, rfl⟩
  | addEdge s t w =>
      obtain ⟨-, added⟩ := Option.ite_none_right_eq_some.mp applied
      obtain ⟨-, same⟩ := Option.ite_none_right_eq_some.mp added
      cases same
      exact ⟨slotted.addEdge _ _ w, few, rfl⟩
  | removeEdge s t w =>
      rw [result?, removeEdge_index] at applied
      cases applied
      exact ⟨slotted.removeEdge _ _ w, by rwa [numVertices_removeEdge], bag_removeEdge g _ _ w⟩
  | clearVertex v =>
      cases applied
      exact ⟨slotted.clearVertex _, by rwa [Indexed.clearVertex, numVertices_clearVertex],
        bag_clearVertex g _⟩

theorem Update.run (slotted : g.Slotted) (few : g.numVertices ≤ maxSize)
    (run : updates.foldlM Update.result? g = some g') :
    g'.Slotted ∧ g'.numVertices ≤ maxSize ∧ g'.bag = updates.foldl Update.onBag g.bag := by
  induction updates generalizing g with
  | nil =>
      cases run
      exact ⟨slotted, few, rfl⟩
  | cons update updates ih =>
      rw [List.foldlM_cons] at run
      obtain ⟨next, applied, rest⟩ := Option.bind_eq_some_iff.mp run
      obtain ⟨slotted, few, same⟩ := Update.step slotted few applied
      rw [List.foldl_cons, ← same]
      exact ih slotted few rest

/-! ## Order -/

theorem edgesAt_mono (fewer : g'.edges.Sublist g.edges) (side : Side) (v : VertexId) :
    (g'.edgesAt side v).Sublist (g.edgesAt side v) := by
  rw [edgesAt_eq, edgesAt_eq]
  exact fewer.filter _

/-! ## Graphs as bags of edges -/

/-- After any updates of the empty graph, the lists of edges at the vertices have every edge as
often as the updates leave it in the bag. Removing by slots moves the last edge, and yet finds and
takes away a copy of the wanted edge if there is one; the loops that clear a vertex end. What
remains keeps its order.

A number of more than 32 bits is looked up as the vertex that its lower bits stand for, though every
vertex of the graph stands for itself. -/
theorem edges_are_bag_by_index (updates : List Update)
    (run : updates.foldlM Update.result? Graph.empty = some g) :
    let edges := updates.foldl Update.onBag 0
    (∀ s t w, (Indexed.outEdges g s).count (t, w) = edges.count (index s, t, w) ∧
      (Indexed.inEdges g t).count (s, w) = edges.count (s, index t, w)) ∧
    g.numEdges = edges.card ∧
    (∀ i < g.numEdges, g.SwapRemoved i (g.removeAt i)) ∧
    (∀ s t w, g.removeFound (index s) (index t) w = Indexed.removeEdge g s t w ∧
      ((Indexed.removeEdge g s t w).1 = true ↔ (index s, index t, w) ∈ edges)) ∧
    (∀ v g', ClearsVertex (index v) g g' ↔ g' = Indexed.clearVertex g v) ∧
    (∀ update : Update, update.result? g = none ↔ update.Panics g) ∧
    (∀ side v,
      (∀ s t w, ((Indexed.removeEdge g s t w).2.edgesAt side v).Sublist (g.edgesAt side v)) ∧
      ∀ x, ((Indexed.clearVertex g x).edgesAt side v).Sublist (g.edgesAt side v)) ∧
    ∀ v < g.numVertices, index v = v := by
  obtain ⟨slotted, few, same⟩ := Update.run (slotted_empty 0) (Nat.zero_le _) run
  change g.bag = updates.foldl Update.onBag 0 at same
  rw [← same]
  refine ⟨fun s t w => ⟨g.count_outEdges _ t w, g.count_inEdges s _ w⟩, g.card_bag.symm,
    fun i bound => slotted.swapRemoved_removeAt bound, fun s t w => ⟨?_, ?_⟩,
    fun v g' => slotted.clearsVertex_iff, fun update => Update.result?_eq_none_iff,
    fun side v => ⟨fun s t w => ?_, fun x => ?_⟩, fun v known => ?_⟩
  · rw [slotted.removeFound_eq, removeEdge_index]
  · rw [removeEdge_index, hasEdge_iff]
    exact Iff.rfl
  · rw [removeEdge_index]
    exact edgesAt_mono (g.edges_removeEdge_sublist _ _ w) side v
  · exact edgesAt_mono (g.edges_clearVertex_sublist _) side v
  · exact index_eq_self (known.trans_le (few.trans (Nat.sub_le ..)))

/-- Two parallel edges, one of which is removed, and a loop. -/
theorem loop_and_parallel_edges_are_bag :
    let updates : List Update := [.addVertex, .addVertex, .addEdge 0 1 0, .addEdge 0 1 0,
      .addEdge 1 1 7, .removeEdge 0 1 0]
    ∃ g, updates.foldlM Update.result? Graph.empty = some g ∧
      (Indexed.outEdges g 0).count (1, 0) = 1 ∧ (Indexed.outEdges g 1).count (1, 7) = 1 ∧
      (Indexed.inEdges g 1).count (1, 7) = 1 ∧ g.numEdges = 2 ∧
      ClearsVertex 1 g (Indexed.clearVertex g 1) := by
  intro updates
  obtain ⟨g, run⟩ : ∃ g, updates.foldlM Update.result? Graph.empty = some g := ⟨_, rfl⟩
  obtain ⟨counts, size, -, -, clears, -⟩ := edges_are_bag_by_index updates run
  exact ⟨g, run, (counts 0 1 0).1, (counts 1 1 7).1, (counts 1 1 7).2, size, (clears 1 _).mpr rfl⟩

/-- The only edge leads from vertex 0 to vertex 1, and yet the call finds and removes one from
vertex `2 ^ 32`, which has it in its list. -/
theorem removeEdge_finds_edge_of_other_vertex :
    let updates : List Update := [.addVertex, .addVertex, .addEdge 0 1 0]
    ∃ g, updates.foldlM Update.result? Graph.empty = some g ∧
      g.bag = {(0, 1, 0)} ∧ (UInt32.size, 1, 0) ∉ g.bag ∧
      Indexed.outEdges g UInt32.size = [(1, 0)] ∧
      (Indexed.removeEdge g UInt32.size 1 0).1 = true ∧
      (Indexed.removeEdge g UInt32.size 1 0).2.numEdges = 0 :=
  ⟨_, rfl, rfl, by decide, by decide, by decide, by decide⟩

end CircuitDag.Graph
