import CircuitDag.Proofs.Commutation
import CircuitDag.Proofs.Graph.TopologicalOrder

/-!
# Listings of arbitrary graphs

Graphs that come from the empty graph by updates of any kind may have parallel edges, loops and
cycles. The work on the queue is told here without a bound on its length and with counters that
are checked before they are lowered; it has exactly one run, and this run gives the topological
listing. What is listed is then a matter of paths alone.
-/

set_option autoImplicit false

namespace CircuitDag.Graph

variable {g g' : Graph} {start : VertexId → Bool} {s t v : VertexId}

/-! ## Graphs built by updates -/

/-- The graphs that arise from the empty graph by updates. Edges are added only between vertices
that exist. -/
inductive Built : Graph → Prop where
  | empty : Built Graph.empty
  | addVertex {g : Graph} (before : Built g) : Built g.addVertex
  | addEdge {g g' : Graph} {s t : VertexId} {w : WireId} (before : Built g)
      (added : g.addEdge? s t w = some g') : Built g'
  | removeEdge {g : Graph} (before : Built g) (s t : VertexId) (w : WireId) :
      Built (g.removeEdge s t w)
  | clearVertex {g : Graph} (before : Built g) (v : VertexId) : Built (g.clearVertex v)

theorem Built.addEdge_of_lt (built : g.Built) (w : WireId)
    (bounds : s < g.numVertices ∧ t < g.numVertices) : (g.addEdge s t w).Built :=
  built.addEdge (if_pos bounds)

theorem Closed.addVertex (closed : g.Closed) : g.addVertex.Closed := by
  intro e inside
  obtain ⟨source, target⟩ := closed e inside
  exact ⟨Nat.lt_succ_of_lt source, Nat.lt_succ_of_lt target⟩

theorem Closed.addEdge? {w : WireId} (closed : g.Closed) (added : g.addEdge? s t w = some g') :
    g'.Closed := by
  rw [Graph.addEdge?, Option.ite_none_right_eq_some] at added
  obtain ⟨bounds, same⟩ := added
  obtain rfl := Option.some.inj same
  intro e inside
  rcases List.mem_cons.mp inside with rfl | inside
  · exact bounds
  · exact closed e inside

/-- Fewer edges between no fewer vertices still join vertices that exist. -/
theorem Closed.of_subset (closed : g.Closed) (fewer : g'.edges ⊆ g.edges)
    (same : g'.numVertices = g.numVertices) : g'.Closed := by
  intro e inside
  rw [same]
  exact closed e (fewer inside)

theorem Built.closed (built : g.Built) : g.Closed := by
  induction built with
  | empty => exact fun e inside => absurd inside List.not_mem_nil
  | addVertex _ ih => exact ih.addVertex
  | addEdge _ added ih => exact ih.addEdge? added
  | removeEdge _ s t w ih =>
      exact ih.of_subset (edges_removeEdge_sublist _ s t w).subset (numVertices_removeEdge _ s t w)
  | clearVertex _ v ih =>
      exact ih.of_subset (edges_clearVertex_sublist _ v).subset (numVertices_clearVertex _ v)

/-! ## The work without a bound -/

section Runs

variable {waiting waiting₁ waiting₂ : Array Nat} {ts queue order order' freed freed₁ freed₂ :
  List VertexId}

/-- Lowers the counters of some targets one by one and collects those that reach zero. A counter
that is lowered exists and is not zero. -/
inductive Lowers : List VertexId → Array Nat → Array Nat → List VertexId → Prop where
  | done (waiting : Array Nat) : Lowers [] waiting waiting []
  | lower {t k : Nat} {ts freed : List VertexId} {waiting waiting' : Array Nat}
      (counter : waiting[t]? = some (k + 1))
      (rest : Lowers ts (waiting.setIfInBounds t k) waiting' freed) :
      Lowers (t :: ts) waiting waiting' (if k = 0 then t :: freed else freed)

/-- A run from a queue with given counters to its end, and what it lists. -/
inductive Drains (g : Graph) : List VertexId → Array Nat → List VertexId → Prop where
  | done (waiting : Array Nat) : Drains g [] waiting []
  | take {v : VertexId} {queue freed order : List VertexId} {waiting waiting' : Array Nat}
      (lowered : Lowers (g.targets v) waiting waiting' freed)
      (rest : Drains g (queue ++ freed) waiting' order) :
      Drains g (v :: queue) waiting (v :: order)

theorem Lowers.unique (first : Lowers ts waiting waiting₁ freed₁)
    (second : Lowers ts waiting waiting₂ freed₂) : waiting₁ = waiting₂ ∧ freed₁ = freed₂ := by
  induction first generalizing waiting₂ freed₂ with
  | done =>
      cases second
      exact ⟨rfl, rfl⟩
  | lower counter _ ih =>
      cases second with
      | lower counter' rest =>
          obtain rfl := Nat.succ.inj (Option.some.inj (counter.symm.trans counter'))
          obtain ⟨rfl, rfl⟩ := ih rest
          exact ⟨rfl, rfl⟩

theorem Drains.unique (first : g.Drains queue waiting order)
    (second : g.Drains queue waiting order') : order = order' := by
  induction first generalizing order' with
  | done =>
      cases second
      rfl
  | take lowered _ ih =>
      cases second with
      | take lowered' rest =>
          obtain ⟨rfl, rfl⟩ := lowered.unique lowered'
          rw [ih rest]

theorem modify_eq_set {k : Nat} (counter : waiting[t]? = some (k + 1)) :
    waiting.modify t (· - 1) = waiting.setIfInBounds t k := by
  apply Array.ext_getElem?
  intro s
  rw [getElem?_lower, Array.getElem?_setIfInBounds]
  by_cases same : t = s
  · subst same
    obtain ⟨bound, value⟩ := Array.getElem?_eq_some_iff.mp counter
    simp [bound, value]
  · simp [same]

/-- With counters that exist and are large enough, the targets are lowered with the checks. -/
theorem lowers_of_suffices (ts : List (VertexId × WireId)) (waiting : Array Nat)
    (front : List VertexId) (enough : Suffices waiting (ts.map Prod.fst))
    (bounded : ∀ t ∈ ts.map Prod.fst, t < waiting.size) :
    ∃ waiting' freed, Lowers (ts.map Prod.fst) waiting waiting' freed ∧
      ts.foldl (fun (waiting, freed) (t, _) =>
          let waiting := waiting.modify t (· - 1)
          (waiting, if waiting[t]? = some 0 then freed ++ [t] else freed)) (waiting, front) =
        (waiting', front ++ freed) := by
  induction ts generalizing waiting front with
  | nil => exact ⟨waiting, [], .done waiting, by simp⟩
  | cons x ts ih =>
      obtain ⟨t, w⟩ := x
      obtain ⟨k, lookup⟩ : ∃ k, waiting[t]? = some (k + 1) := by
        have lookup := Array.getElem?_eq_getElem (bounded t List.mem_cons_self)
        have positive := enough t _ lookup
        rw [List.map_cons, List.count_cons_self] at positive
        obtain ⟨k, value⟩ := Nat.exists_eq_add_one.mpr (Nat.le_of_add_left_le positive)
        exact ⟨k, lookup.trans (congrArg some value)⟩
      obtain ⟨waiting', freed, lowered, result⟩ :=
        ih (waiting.modify t (· - 1))
          (if (waiting.modify t (· - 1))[t]? = some 0 then front ++ [t] else front) enough.lower
          (fun s inside => by simpa using bounded s (List.mem_cons_of_mem t inside))
      refine ⟨waiting', if k = 0 then t :: freed else freed, ?_, ?_⟩
      · exact .lower lookup (modify_eq_set lookup ▸ lowered)
      · have reached : (waiting.modify t (· - 1))[t]? = some k := by
          rw [getElem?_lower, if_pos rfl, lookup]
          rfl
        rw [List.foldl_cons]
        refine result.trans ?_
        rw [reached]
        by_cases zero : k = 0 <;> simp [zero]

/-- With fuel for every vertex that is not listed, the bounded work is a run to the end. -/
theorem Draining.drains (closed : g.Closed) (fuel : Nat) {done : List VertexId}
    (draining : g.Draining start done queue waiting)
    (enough : g.numVertices ≤ done.length + fuel) :
    g.Drains queue waiting (g.drain fuel queue waiting) := by
  induction fuel generalizing done queue waiting with
  | zero =>
      have bound := draining.length_le
      rw [List.length_append] at bound
      obtain rfl : queue = [] := List.eq_nil_of_length_eq_zero (by omega)
      exact .done waiting
  | succ fuel ih =>
      cases queue with
      | nil => exact .done waiting
      | cons v queue =>
          have inside : ∀ t ∈ g.targets v, t < waiting.size := by
            intro t target
            obtain ⟨e, member, -, rfl⟩ := mem_targets.mp target
            rw [draining.size]
            exact (closed e member).2
          obtain ⟨waiting', freed, lowered, result⟩ :=
            lowers_of_suffices (g.outEdges v) waiting [] draining.suffices inside
          have rest := ih (draining.step closed) (by
            rw [List.length_append, List.length_singleton]
            omega)
          rw [Graph.drain, result]
          rw [result] at rest
          exact .take lowered rest

end Runs

def inDegrees (g : Graph) : Array Nat := (Array.range g.numVertices).map g.inDegree

/-- The accepted vertices without incoming edges, by number. -/
def sources (g : Graph) (start : VertexId → Bool) : List VertexId :=
  (List.range g.numVertices).filter fun v => start v && decide (g.inDegree v = 0)

theorem sources_eq (g : Graph) (start : VertexId → Bool) :
    ((List.range g.numVertices).filter fun v =>
      start v && decide (((Array.range g.numVertices).map g.inDegree)[v]? = some 0)) =
      g.sources start := by
  refine List.filter_congr fun v inside => ?_
  have bound := List.mem_range.mp inside
  simp [bound]

/-- The listing is what the one run of the work from the sources on lists. -/
theorem drains_iff (closed : g.Closed) (order : List VertexId) :
    g.Drains (g.sources start) g.inDegrees order ↔ order = g.topologicalOrder start := by
  have run : g.Drains (g.sources start) g.inDegrees (g.topologicalOrder start) := by
    have begun := draining_start g start
    rw [sources_eq] at begun
    rw [topologicalOrder, sources_eq]
    exact begun.drains closed g.numVertices (by simp)
  constructor
  · intro drains
    exact drains.unique run
  · intro same
    rw [same]
    exact run

/-- A listed vertex comes after the sources of all its edges. -/
theorem before_of_joins (closed : g.Closed) (joins : g.Joins s t)
    (listed : t ∈ g.topologicalOrder start) : Before (g.topologicalOrder start) s t := by
  obtain ⟨front, back, shape⟩ := List.append_of_mem listed
  have inFront := (topologicalOrder_spec closed start).2.2 front t back shape s joins
  obtain ⟨left, right, rfl⟩ := List.append_of_mem inFront
  exact before_iff.mpr ⟨left, right ++ t :: back, by simp [shape], by simp⟩

theorem length_topologicalOrder_eq_iff (closed : g.Closed) :
    (g.topologicalOrder fun _ => true).length = g.numVertices ↔ g.Acyclic := by
  rw [← isCyclic_eq_false_iff closed]
  simp [isCyclic]

end CircuitDag.Graph
