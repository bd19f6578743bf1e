import CircuitDag.Proofs.Circuit.Reachable
import CircuitDag.Proofs.Circuit.Splicing

/-!
# Insertions that would close a cycle

An insertion is refused exactly if the edges that it is to leave behind form a cycle. The search for
paths goes along the edges before the insertion, some of which are about to be replaced. A path over
such an edge reaches an insertion point, and from the new vertex there is a shorter way to it.
-/

set_option autoImplicit false

namespace CircuitDag

namespace Graph

variable {g : Graph} {v a b x : VertexId} {w : WireId} {points : List (VertexId × WireId)}

/-- The edges of a graph once `v` stands before given vertices: on the wire of each of them, the
edge into it leads to `v`, and another edge leads on from there. -/
inductive Detour (g : Graph) (v : VertexId) (points : List (VertexId × WireId)) :
    VertexId → VertexId → WireId → Prop where
  | kept {a b : VertexId} {w : WireId} (segment : (a, b, w) ∈ g.segments)
      (apart : (b, w) ∉ points) : Detour g v points a b w
  | into {a b : VertexId} {w : WireId} (segment : (a, b, w) ∈ g.segments)
      (chosen : (b, w) ∈ points) : Detour g v points a v w
  | out {a b : VertexId} {w : WireId} (segment : (a, b, w) ∈ g.segments)
      (chosen : (b, w) ∈ points) : Detour g v points v b w

/-- Some edges, each on a wire, lead from a vertex back to itself. -/
def HasCycle (edge : VertexId → VertexId → WireId → Prop) : Prop :=
  ∃ v, Relation.TransGen (fun s t => ∃ w, edge s t w) v v

theorem joins_iff_segment : g.Joins a b ↔ ∃ w, (a, b, w) ∈ g.segments := by
  simp only [Joins, segments, List.mem_map, Edge.segment, Prod.mk.injEq]
  constructor
  · intro given
    obtain ⟨e, member, rfl, rfl⟩ := given
    exact ⟨e.wire, e, member, rfl, rfl, rfl⟩
  · intro given
    obtain ⟨w, e, member, source, target, -⟩ := given
    exact ⟨e, member, source, target⟩

/-- What is reached from an insertion point is still reached from the new vertex: a step over an
edge that is replaced ends at another insertion point, which the new vertex leads to itself. -/
theorem Detour.reaches (segment : (a, b, w) ∈ g.segments) (chosen : (b, w) ∈ points)
    (path : Relation.ReflTransGen g.Joins b x) :
    Relation.TransGen (fun s t => ∃ w, g.Detour v points s t w) v x := by
  induction path with
  | refl => exact .single ⟨w, .out segment chosen⟩
  | @tail y z _ joins ih =>
      obtain ⟨w', segment'⟩ := joins_iff_segment.mp joins
      by_cases chosen' : (z, w') ∈ points
      · exact .single ⟨w', .out segment' chosen'⟩
      · exact ih.tail ⟨w', .kept segment' chosen'⟩

/-- A path from one insertion point to the vertex before another one closes a cycle. -/
theorem Detour.hasCycle {a' b' : VertexId} {w' : WireId} (segment : (a, b, w) ∈ g.segments)
    (chosen : (b, w) ∈ points) (segment' : (a', b', w') ∈ g.segments)
    (chosen' : (b', w') ∈ points) (path : Relation.ReflTransGen g.Joins b a') :
    HasCycle (g.Detour v points) :=
  ⟨v, (Detour.reaches segment chosen path).tail ⟨w', .into segment' chosen'⟩⟩

/-- A graph without cycles has none in other edges that are as its own. -/
theorem Acyclic.not_hasCycle (acyclic : g.Acyclic) {edge : VertexId → VertexId → WireId → Prop}
    (same : ∀ a b w, (a, b, w) ∈ g.segments ↔ edge a b w) : ¬ HasCycle edge := by
  intro cyclic
  obtain ⟨v, path⟩ := cyclic
  refine acyclic v (path.lift id fun s t joined => ?_)
  obtain ⟨w, joined⟩ := joined
  exact joins_iff_segment.mpr ⟨w, (same s t w).mpr joined⟩

end Graph

namespace Circuit

variable {c : Circuit} {line : WireId → List VertexId} {v : VertexId} {w : WireId}
  {op : Operation} {qubits clbits : List WireId} {before : List VertexId}
  {points : List InsertionPoint}

/-- A vertex on a wire that is no input can be inserted before. -/
theorem Layout.exists_insertionPoint (layout : c.Layout line) {r : Record}
    (live : c.records.Live v r) (notInput : r.element ≠ .input) (member : w ∈ r.wires) :
    ∃ point, c.insertionPoint v w = .ok point := by
  have carries : c.records.Carries v w := ⟨r, live, member⟩
  obtain ⟨a, adjacent⟩ : ∃ a, Adjacent (line w) a v :=
    layout.exists_beside live (layout.covered v w carries) .incoming notInput
  have facing := (layout.strung w).incoming a v adjacent
  have neighbor : c.records.neighbor .incoming v w = .ok (c.records.portOn w a) := by
    rw [Records.neighbor_of_carries carries, facing]
  have index := Records.wireIndex_of_carries carries
  refine ⟨⟨⟨v, (c.records.portOn w v).index⟩, a⟩, ?_⟩
  simp only [insertionPoint, live.1, live.2, Bool.false_eq_true, ↓reduceIte, notInput, index,
    neighbor]
  rfl

/-- The edges after an insertion are those of the detour. -/
theorem Layout.segments_placed (layout : c.Layout line) (accepts : c.Accepts op qubits clbits)
    (same : before.length = (qubits ++ clbits).length)
    (found : (before.zip (qubits ++ clbits)).mapM (fun (v, w) => c.insertionPoint v w) = .ok points)
    {c' : Circuit} {line' : WireId → List VertexId}
    (grown : c.Grown line op qubits clbits (points.map (·.successor)) c' line')
    (a b : VertexId) (w : WireId) :
    (a, b, w) ∈ c'.graph.segments ↔
      c.graph.Detour c.records.size (before.zip (qubits ++ clbits)) a b w := by
  obtain ⟨gaps, shape, spliced⟩ := layout.spliced accepts same found grown
  have unique := fun w => (layout.strung w).nodup
  have segment : ∀ {a b w}, (a, b, w) ∈ c.graph.segments ↔ Adjacent (line w) a b :=
    layout.traced.mem_iff _ _ _
  have chosen : ∀ {b w}, (b, w) ∈ before.zip (qubits ++ clbits) ↔ ∃ a, (a, b, w) ∈ gaps := by
    intro b w
    simp [← shape]
  have split : ∀ {a b w}, (a, b, w) ∈ c.graph.segments → (b, w) ∈ before.zip (qubits ++ clbits) →
      (a, b, w) ∈ gaps := by
    intro a b w old given
    obtain ⟨a', inside⟩ := chosen.mp given
    rwa [(segment.mp old).left_unique (spliced.adjacent inside) (unique w)]
  rw [grown.layout.traced.mem_iff, spliced.adjacent_iff unique]
  constructor
  · rintro (⟨rfl, a, inside⟩ | ⟨rfl, b, inside⟩ | ⟨adjacent, outside⟩)
    · exact .out (segment.mpr (spliced.adjacent inside)) (chosen.mpr ⟨a, inside⟩)
    · exact .into (segment.mpr (spliced.adjacent inside)) (chosen.mpr ⟨a, inside⟩)
    · exact .kept (segment.mpr adjacent) fun given => outside (split (segment.mpr adjacent) given)
  · intro detour
    cases detour with
    | kept old apart =>
        exact .inr (.inr ⟨segment.mp old, fun inside => apart (chosen.mpr ⟨a, inside⟩)⟩)
    | into old given => exact .inr (.inl ⟨rfl, _, split old given⟩)
    | out old given => exact .inl ⟨rfl, _, split old given⟩

/-- A path from an insertion point to the vertex before one closes a cycle. -/
theorem Layout.hasCycle_of_closesCycle (layout : c.Layout line)
    (found : (before.zip (qubits ++ clbits)).mapM (fun (v, w) => c.insertionPoint v w) = .ok points)
    (closes : c.closesCycle points = true) :
    Graph.HasCycle (c.graph.Detour v (before.zip (qubits ++ clbits))) := by
  have entry : ∀ p ∈ points, ∃ w, (p.successor.vertex, w) ∈ before.zip (qubits ++ clbits) ∧
      (p.predecessor, p.successor.vertex, w) ∈ c.graph.segments := by
    intro p member
    obtain ⟨⟨x, w⟩, given, point⟩ := exists_of_mem_mapM found member
    obtain ⟨a, adjacent, rfl⟩ := layout.insertionPoint_spec point
    exact ⟨w, given, (layout.traced.mem_iff _ _ _).mpr adjacent⟩
  simp only [closesCycle, List.any_eq_true] at closes
  obtain ⟨p, left, q, right, path⟩ := closes
  obtain ⟨w, chosen, segment⟩ := entry p left
  obtain ⟨w', chosen', segment'⟩ := entry q right
  exact Graph.Detour.hasCycle segment chosen segment' chosen' (Graph.hasPath_eq_true_iff.mp path)

/-- Whether an operation with given insertion points is refused depends only on the cycles that it
would close. -/
theorem insertion_refused_iff_cycle (reached : c.Reachable)
    (valid : c.validate op qubits clbits = .ok ())
    (same : before.length = (qubits ++ clbits).length)
    (fit : ∀ v w, (v, w) ∈ before.zip (qubits ++ clbits) →
      ∃ r, c.records.Live v r ∧ r.element ≠ .input ∧ w ∈ r.wires) :
    ((insertOperation op before qubits clbits).run c =
        .error (.validation (.wouldCreateCycle before)) c ↔
      Graph.HasCycle (c.graph.Detour c.records.size (before.zip (qubits ++ clbits)))) ∧
    (¬ Graph.HasCycle (c.graph.Detour c.records.size (before.zip (qubits ++ clbits))) →
      ∃ c', (insertOperation op before qubits clbits).run c = .ok c.records.size c' ∧
        (∀ a b w, (a, b, w) ∈ c'.graph.segments ↔
          c.graph.Detour c.records.size (before.zip (qubits ++ clbits)) a b w) ∧
        c'.graph.Acyclic) := by
  obtain ⟨line, layout⟩ := reached.laidOut
  have accepts := validate_eq_ok_iff.mp valid
  obtain ⟨points, found⟩ : ∃ points, (before.zip (qubits ++ clbits)).mapM
      (fun (v, w) => c.insertionPoint v w) = .ok points := by
    apply exists_mapM_eq_ok
    rintro ⟨v, w⟩ given
    obtain ⟨r, live, notInput, member⟩ := fit v w given
    exact layout.exists_insertionPoint live notInput member
  have run := insertOperation_run op before qubits clbits c
  simp only [valid, found, same, ne_eq, not_true_eq_false, ↓reduceIte] at run
  cases closes : c.closesCycle points with
  | true =>
      have cyclic := layout.hasCycle_of_closesCycle (v := c.records.size) found closes
      rw [closes, if_pos rfl] at run
      exact ⟨iff_of_true run cyclic, fun acyclic => absurd cyclic acyclic⟩
  | false =>
      obtain ⟨line', grown⟩ := layout.placeBefore accepts same found closes
      have segments := layout.segments_placed accepts same found grown
      have acyclic := grown.layout.acyclic grown.layout.orderly
      have none := acyclic.not_hasCycle segments
      rw [closes, if_neg Bool.false_ne_true] at run
      refine ⟨iff_of_false (fun refused => ?_) none, fun _ => ⟨_, run, segments, acyclic⟩⟩
      cases run.symm.trans refused

def singleCX : Circuit :=
  (Change.addOperation { element := .cx } [0, 1] []).after (blank 2 0 Binary64.zero)

/-- Nothing fits before an operation on one of its wires and behind it on the other. -/
theorem insertion_around_singleCX_refused :
    (insertOperation { element := .cx } [4, 3] [0, 1] []).run singleCX =
      .error (.validation (.wouldCreateCycle [4, 3])) singleCX := by
  have reached : singleCX.Reachable := (Reachable.blank 2 0 Binary64.zero).change _
  have valid : singleCX.validate { element := .cx } [0, 1] [] = .ok () := rfl
  have counts : [4, 3].length = ([0, 1] ++ [] : List WireId).length := rfl
  refine (insertion_refused_iff_cycle reached valid counts ?_).1.mpr ⟨4, ?_⟩
  · intro v w given
    rcases List.mem_cons.mp given with equal | given
    · cases equal
      exact ⟨_, ⟨rfl, rfl⟩, by decide, by decide⟩
    · cases List.mem_singleton.mp given
      exact ⟨_, ⟨rfl, rfl⟩, by decide, by decide⟩
  · have behind : (4, 3, 1) ∈ singleCX.graph.segments := by decide
    have ahead : (0, 4, 0) ∈ singleCX.graph.segments := by decide
    exact .tail (.single ⟨1, .into behind (by decide)⟩) ⟨0, .out ahead (by decide)⟩

end Circuit

end CircuitDag
