import CircuitDag.Proofs.Graph.Segments
import Mathlib.Data.List.Count
import Mathlib.Data.Fintype.EquivFin
import Mathlib.Logic.Relation
import Mathlib.Order.WellFounded

/-!
# The topological listing of a graph

The listing takes vertices from a queue and counts, for every other vertex, the edges from vertices
that are not yet taken. `Draining` is the invariant of this work on any graph; it gives what is
listed, that sources come before targets, and that a listing of all vertices means that there is no
cycle.
-/

set_option autoImplicit false

namespace CircuitDag.Graph

variable {g : Graph} {start : VertexId → Bool} {u v s t : VertexId}

/-- Edges join vertices that exist. -/
def Closed (g : Graph) : Prop :=
  ∀ e ∈ g.edges, e.source < g.numVertices ∧ e.target < g.numVertices

/-- There is an edge between two vertices. -/
def Joins (g : Graph) (s t : VertexId) : Prop := ∃ e ∈ g.edges, e.source = s ∧ e.target = t

def awaited (g : Graph) (done : List VertexId) (t : VertexId) : Nat :=
  g.edges.countP fun e => e.target = t ∧ e.source ∉ done

theorem awaited_eq_zero_iff {done : List VertexId} :
    g.awaited done t = 0 ↔ ∀ s, g.Joins s t → s ∈ done := by
  simp only [awaited, List.countP_eq_zero, Bool.decide_and, Bool.and_eq_true, decide_eq_true_eq,
    not_and, not_not, Joins]
  constructor
  · intro all s given
    obtain ⟨e, member, rfl, rfl⟩ := given
    exact all e member rfl
  · intro all e member same
    obtain rfl := same
    exact all e.source ⟨e, member, rfl, rfl⟩

theorem awaited_nil (g : Graph) (t : VertexId) : g.awaited [] t = g.inDegree t := by
  simp [awaited, inDegree, edgesInto, List.countP_eq_length_filter]

def targets (g : Graph) (v : VertexId) : List VertexId := (g.outEdges v).map Prod.fst

theorem count_targets (g : Graph) (v t : VertexId) :
    (g.targets v).count t = g.edges.countP fun e => e.target = t ∧ e.source = v := by
  have shape : g.targets v = (g.edges.filter (·.source = v)).map Edge.target := by
    simp [targets, outEdges, edgesOutOf, Function.comp_def]
  rw [shape, List.count, List.countP_map, List.countP_filter]
  apply List.countP_congr
  intro e _
  simp [and_comm]

theorem mem_targets : t ∈ g.targets v ↔ g.Joins v t := by
  simp [targets, outEdges, edgesOutOf, Joins, and_assoc]

theorem awaited_snoc {done : List VertexId} (fresh : v ∉ done) (t : VertexId) :
    g.awaited done t = g.awaited (done ++ [v]) t + (g.targets v).count t := by
  rw [count_targets, awaited, awaited]
  induction g.edges with
  | nil => rfl
  | cons e es ih =>
      simp only [List.countP_cons, ih, List.mem_append, List.mem_singleton, not_or]
      by_cases target : e.target = t
      · by_cases source : e.source = v
        · subst source
          simp only [target, fresh, not_false_eq_true, not_true_eq_false, and_self, and_false,
            decide_true, decide_false, ↓reduceIte, Bool.false_eq_true]
          omega
        · simp only [target, source, not_false_eq_true, and_true, and_false, decide_false,
            Bool.false_eq_true, ↓reduceIte]
          omega
      · simp [target]

theorem awaited_le_inDegree (g : Graph) (done : List VertexId) (t : VertexId) :
    g.awaited done t ≤ g.inDegree t := by
  rw [← awaited_nil]
  apply List.countP_mono_left
  intro e _ holds
  simp only [Bool.decide_and, Bool.and_eq_true, decide_eq_true_eq] at holds
  simp [holds.1]

/-! ## Lowering counters -/

/-- Each counter is at least as large as the number of times that its vertex occurs. -/
def Suffices (waiting : Array Nat) (ts : List VertexId) : Prop :=
  ∀ t k, waiting[t]? = some k → ts.count t ≤ k

section Lowering

variable {waiting : Array Nat} {ts : List VertexId}

theorem getElem?_lower (waiting : Array Nat) (s t : VertexId) :
    (waiting.modify s (· - 1))[t]? =
      if s = t then waiting[t]?.map (· - 1) else waiting[t]? :=
  Array.getElem?_modify

theorem Suffices.lower (enough : Suffices waiting (s :: ts)) :
    Suffices (waiting.modify s (· - 1)) ts := by
  intro t k lookup
  rw [getElem?_lower] at lookup
  by_cases same : s = t
  · subst same
    rw [if_pos rfl, Option.map_eq_some_iff] at lookup
    obtain ⟨j, lookup, rfl⟩ := lookup
    have bound := enough s j lookup
    rw [List.count_cons_self] at bound
    omega
  · rw [if_neg same] at lookup
    have bound := enough t k lookup
    rwa [List.count_cons_of_ne same] at bound

theorem map_lower (waiting : Array Nat) (s t : VertexId) (ts : List VertexId) :
    (waiting.modify s (· - 1))[t]?.map (· - ts.count t) =
      waiting[t]?.map (· - (s :: ts).count t) := by
  rw [getElem?_lower]
  by_cases same : s = t
  · subst same
    rw [if_pos rfl, Option.map_map, List.count_cons_self]
    congr 1
    funext k
    simp only [Function.comp_apply]
    omega
  · rw [if_neg same, List.count_cons_of_ne same]

theorem Suffices.lower_eq_iff (enough : Suffices waiting (s :: ts)) (t : VertexId) :
    (waiting.modify s (· - 1))[t]? = some (ts.count t) ↔
      waiting[t]? = some ((s :: ts).count t) := by
  rw [getElem?_lower]
  by_cases same : s = t
  · subst same
    rw [if_pos rfl, List.count_cons_self]
    cases lookup : waiting[s]? with
    | none => simp
    | some j =>
        have bound := enough s j lookup
        rw [List.count_cons_self] at bound
        simp only [Option.map_some, Option.some.injEq]
        omega
  · rw [if_neg same, List.count_cons_of_ne same]

end Lowering

/-- Lowering the counters of a list of targets one by one. A target is freed when its counter
reaches zero, which happens at its last occurrence if there are as many as it waits for. -/
theorem lower_counters (ts : List (VertexId × WireId)) (waiting : Array Nat)
    (freed : List VertexId) (enough : Suffices waiting (ts.map Prod.fst)) :
    ∃ waiting' new,
      ts.foldl (fun (waiting, freed) (t, _) =>
          let waiting := waiting.modify t (· - 1)
          (waiting, if waiting[t]? = some 0 then freed ++ [t] else freed)) (waiting, freed) =
        (waiting', freed ++ new) ∧
      (∀ t, waiting'[t]? = waiting[t]?.map (· - (ts.map Prod.fst).count t)) ∧ new.Nodup ∧
      ∀ t, t ∈ new ↔
        t ∈ ts.map Prod.fst ∧ waiting[t]? = some ((ts.map Prod.fst).count t) := by
  induction ts generalizing waiting freed with
  | nil => exact ⟨waiting, [], by simp, by simp, List.nodup_nil, by simp⟩
  | cons x ts ih =>
      obtain ⟨s, w⟩ := x
      obtain ⟨waiting', new, result, counters, unique, members⟩ :=
        ih (waiting.modify s (· - 1))
          (if (waiting.modify s (· - 1))[s]? = some 0 then freed ++ [s] else freed) enough.lower
      have counters' : ∀ t, waiting'[t]? =
          waiting[t]?.map (· - (((s, w) :: ts).map Prod.fst).count t) :=
        fun t => (counters t).trans (map_lower waiting s t _)
      have members' : ∀ t, t ∈ new ↔ t ∈ ts.map Prod.fst ∧
          waiting[t]? = some ((((s, w) :: ts).map Prod.fst).count t) :=
        fun t => (members t).trans (and_congr_right fun _ => enough.lower_eq_iff t)
      rw [List.foldl_cons]
      by_cases freedNow : (waiting.modify s (· - 1))[s]? = some 0
      · have last : (ts.map Prod.fst).count s = 0 :=
          Nat.le_zero.mp (enough.lower s 0 freedNow)
        have here : waiting[s]? = some ((((s, w) :: ts).map Prod.fst).count s) :=
          (enough.lower_eq_iff s).mp (last.symm ▸ freedNow)
        rw [if_pos freedNow] at result
        refine ⟨waiting', s :: new, ?_, counters', ?_, ?_⟩
        · simpa [freedNow] using result
        · refine List.nodup_cons.mpr ⟨?_, unique⟩
          intro member
          exact List.count_eq_zero.mp last ((members s).mp member).1
        · intro t
          rw [List.mem_cons, members', List.map_cons, List.mem_cons]
          constructor
          · intro given
            rcases given with rfl | ⟨later, reached⟩
            · exact ⟨.inl rfl, here⟩
            · exact ⟨.inr later, reached⟩
          · intro given
            rcases given with ⟨same | later, reached⟩
            · exact .inl same
            · exact .inr ⟨later, reached⟩
      · rw [if_neg freedNow] at result
        refine ⟨waiting', new, ?_, counters', unique, ?_⟩
        · simpa [freedNow] using result
        · intro t
          rw [members', List.map_cons, List.mem_cons]
          refine and_congr_left fun reached => ⟨.inr, ?_⟩
          intro given
          rcases given with rfl | later
          · -- A counter that does not reach zero now belongs to a vertex that occurs again.
            have more := (enough.lower_eq_iff t).mpr reached
            by_contra absent
            rw [List.count_eq_zero.mpr absent] at more
            exact freedNow more
          · exact later

/-! ## The listing -/

/-- The state of the listing: `done` is listed, `queue` is freed and waits to be listed. A vertex is
in one of them exactly when it awaits nothing and is accepted if nothing leads to it. -/
structure Draining (g : Graph) (start : VertexId → Bool) (done queue : List VertexId)
    (waiting : Array Nat) : Prop where
  nodup : (done ++ queue).Nodup
  bounded : ∀ v ∈ done ++ queue, v < g.numVertices
  size : waiting.size = g.numVertices
  counters : ∀ t, t < g.numVertices → waiting[t]? = some (g.awaited done t)
  ready : ∀ t, t < g.numVertices →
    (t ∈ done ++ queue ↔ g.awaited done t = 0 ∧ (g.inDegree t = 0 → start t = true))
  sources : ∀ front t back, done = front ++ t :: back → ∀ s, g.Joins s t → s ∈ front

theorem size_eq_of_getElem? {xs ys : Array Nat} {f : Nat → Nat → Nat}
    (same : ∀ t : Nat, ys[t]? = xs[t]?.map (f t)) : ys.size = xs.size := by
  have absent : ∀ t : Nat, ys[t]? = none ↔ xs[t]? = none := by
    intro t
    rw [same, Option.map_eq_none_iff]
  simp only [Array.getElem?_eq_none_iff] at absent
  exact Nat.le_antisymm ((absent xs.size).mpr (Nat.le_refl _))
    ((absent ys.size).mp (Nat.le_refl _))

section Step

variable {done queue : List VertexId} {waiting : Array Nat}

theorem Draining.fresh (draining : g.Draining start done (v :: queue) waiting) : v ∉ done := by
  intro member
  exact (List.nodup_append.mp draining.nodup).2.2 v member v List.mem_cons_self rfl

/-- No counter is lowered more often than it can be. -/
theorem Draining.suffices (draining : g.Draining start done (v :: queue) waiting) :
    Suffices waiting (g.targets v) := by
  intro t k lookup
  by_cases bound : t < g.numVertices
  · rw [draining.counters t bound] at lookup
    obtain rfl := Option.some.inj lookup
    rw [awaited_snoc draining.fresh t]
    exact Nat.le_add_left _ _
  · have beyond : waiting.size ≤ t := by
      rw [draining.size]
      exact Nat.le_of_not_lt bound
    rw [Array.getElem?_eq_none beyond] at lookup
    cases lookup

/-- Taking a vertex lowers the counters to what is still awaited, and frees its targets that
await nothing else. -/
theorem Draining.lower (draining : g.Draining start done (v :: queue) waiting)
    (closed : g.Closed) :
    ∃ waiting' new,
      (g.outEdges v).foldl (fun (waiting, freed) (t, _) =>
          let waiting := waiting.modify t (· - 1)
          (waiting, if waiting[t]? = some 0 then freed ++ [t] else freed)) (waiting, []) =
        (waiting', new) ∧ waiting'.size = g.numVertices ∧
      (∀ t, t < g.numVertices → waiting'[t]? = some (g.awaited (done ++ [v]) t)) ∧ new.Nodup ∧
      ∀ t, t ∈ new ↔ t ∈ g.targets v ∧ t < g.numVertices ∧
        g.awaited done t = (g.targets v).count t := by
  obtain ⟨waiting', new, result, counters, unique, members⟩ :=
    lower_counters (g.outEdges v) waiting [] draining.suffices
  refine ⟨waiting', new, result, (size_eq_of_getElem? counters).trans draining.size, ?_, unique,
    ?_⟩
  · intro t bound
    rw [counters t, draining.counters t bound, Option.map_some, awaited_snoc draining.fresh t]
    congr 1
    exact Nat.add_sub_cancel _ _
  · intro t
    rw [members]
    refine and_congr_right fun target => ?_
    obtain ⟨e, inside, -, rfl⟩ := mem_targets.mp target
    have bound := (closed e inside).2
    rw [draining.counters _ bound, Option.some.injEq]
    exact (and_iff_right bound).symm

/-- After a vertex is taken, a vertex awaits nothing if it awaited nothing before or only that
vertex. -/
theorem awaited_snoc_eq_zero_iff (fresh : v ∉ done) :
    (g.awaited (done ++ [v]) t = 0 ∧ (g.inDegree t = 0 → start t = true)) ↔
      (g.awaited done t = 0 ∧ (g.inDegree t = 0 → start t = true)) ∨
        (t ∈ g.targets v ∧ g.awaited done t = (g.targets v).count t) := by
  have split := awaited_snoc (g := g) fresh t
  constructor
  · intro given
    obtain ⟨zero, accepted⟩ := given
    by_cases none : (g.targets v).count t = 0
    · exact .inl ⟨by omega, accepted⟩
    · exact .inr ⟨List.count_pos_iff.mp (Nat.pos_of_ne_zero none), by omega⟩
  · intro given
    rcases given with ⟨zero, accepted⟩ | ⟨target, same⟩
    · exact ⟨by omega, accepted⟩
    · refine ⟨by omega, ?_⟩
      intro isolated
      have positive : 0 < (g.targets v).count t := List.count_pos_iff.mpr target
      have bounded := awaited_le_inDegree g done t
      omega

theorem Draining.sources_snoc (draining : g.Draining start done (v :: queue) waiting)
    {front back : List VertexId} (shape : done ++ [v] = front ++ t :: back)
    (joins : g.Joins s t) : s ∈ front := by
  rcases List.eq_nil_or_concat back with rfl | ⟨back, last, rfl⟩
  · obtain ⟨rfl, same⟩ := List.append_inj' shape rfl
    obtain rfl : v = t := by simpa using same
    have bound := draining.bounded v (by simp)
    exact awaited_eq_zero_iff.mp ((draining.ready v bound).mp (by simp)).1 s joins
  · have shape : done ++ [v] = (front ++ t :: back) ++ [last] := by simpa using shape
    obtain ⟨shape, -⟩ := List.append_inj' shape rfl
    exact draining.sources front t back shape s joins

theorem Draining.step (draining : g.Draining start done (v :: queue) waiting)
    (closed : g.Closed) :
    let next := (g.outEdges v).foldl
      (fun (waiting, freed) (t, _) =>
        let waiting := waiting.modify t (· - 1)
        (waiting, if waiting[t]? = some 0 then freed ++ [t] else freed)) (waiting, [])
    g.Draining start (done ++ [v]) (queue ++ next.2) next.1 := by
  obtain ⟨waiting', new, result, size, counters, unique, members⟩ := draining.lower closed
  have perm : (done ++ [v] ++ (queue ++ new)).Perm ((done ++ v :: queue) ++ new) := by
    simp
  have apart : ∀ t ∈ new, t ∉ done ++ v :: queue := by
    intro t inNew old
    obtain ⟨target, bound, same⟩ := (members t).mp inNew
    have zero := ((draining.ready t bound).mp old).1
    have positive : 0 < (g.targets v).count t := List.count_pos_iff.mpr target
    omega
  simp only [result]
  constructor
  · refine perm.symm.nodup ?_
    refine draining.nodup.append unique ?_
    intro t old inNew
    exact apart t inNew old
  · intro t member
    rcases List.mem_append.mp (perm.subset member) with old | inNew
    · exact draining.bounded t old
    · exact ((members t).mp inNew).2.1
  · exact size
  · exact counters
  · intro t bound
    rw [perm.mem_iff, List.mem_append, draining.ready t bound, members,
      awaited_snoc_eq_zero_iff draining.fresh]
    simp only [bound, true_and]
  · intro front t back shape s joins
    exact draining.sources_snoc shape joins

end Step

theorem Draining.length_le {done queue : List VertexId} {waiting : Array Nat}
    (draining : g.Draining start done queue waiting) :
    (done ++ queue).length ≤ g.numVertices := by
  have included : done ++ queue ⊆ List.range g.numVertices := fun v member =>
    List.mem_range.mpr (draining.bounded v member)
  simpa using (List.subperm_of_subset draining.nodup included).length_le

/-- With fuel for every vertex that is not listed, the queue is emptied. -/
theorem Draining.drain (closed : g.Closed) (fuel : Nat) {done queue : List VertexId}
    {waiting : Array Nat} (draining : g.Draining start done queue waiting)
    (enough : g.numVertices ≤ done.length + fuel) :
    ∃ waiting', g.Draining start (done ++ g.drain fuel queue waiting) [] waiting' := by
  induction fuel generalizing done queue waiting with
  | zero =>
      have bound := draining.length_le
      rw [List.length_append] at bound
      have empty : queue = [] := List.eq_nil_of_length_eq_zero (by omega)
      subst empty
      exact ⟨waiting, by simpa [Graph.drain] using draining⟩
  | succ fuel ih =>
      cases queue with
      | nil => exact ⟨waiting, by simpa [Graph.drain] using draining⟩
      | cons v queue =>
          obtain ⟨waiting', finished⟩ := ih (draining.step closed) (by
            rw [List.length_append, List.length_singleton]
            omega)
          refine ⟨waiting', ?_⟩
          rw [Graph.drain]
          simpa using finished

theorem draining_start (g : Graph) (start : VertexId → Bool) :
    g.Draining start []
      ((List.range g.numVertices).filter fun v =>
        start v && ((Array.range g.numVertices).map g.inDegree)[v]? = some 0)
      ((Array.range g.numVertices).map g.inDegree) := by
  have lookup : ∀ t, t < g.numVertices →
      ((Array.range g.numVertices).map g.inDegree)[t]? = some (g.inDegree t) := by
    intro t bound
    simp [bound]
  constructor
  · exact List.nodup_range.filter _
  · intro v member
    exact List.mem_range.mp (List.mem_filter.mp member).1
  · simp
  · intro t bound
    rw [lookup t bound, awaited_nil]
  · intro t bound
    rw [List.nil_append, List.mem_filter, List.mem_range, lookup t bound, awaited_nil]
    simp only [bound, Option.some.injEq, Bool.and_eq_true, decide_eq_true_eq, true_and]
    constructor
    · intro given
      obtain ⟨accepted, isolated⟩ := given
      exact ⟨isolated, fun _ => accepted⟩
    · intro given
      obtain ⟨isolated, accepted⟩ := given
      exact ⟨accepted isolated, isolated⟩
  · intro front t back shape
    simp at shape

/-- What the topological listing lists: no vertex twice, and exactly those vertices whose
predecessors are all listed and that are accepted if they have none. Every source comes before its
targets. -/
theorem topologicalOrder_spec (closed : g.Closed) (start : VertexId → Bool) :
    (g.topologicalOrder start).Nodup ∧
      (∀ t, t ∈ g.topologicalOrder start ↔ t < g.numVertices ∧
        (∀ s, g.Joins s t → s ∈ g.topologicalOrder start) ∧
        (g.inDegree t = 0 → start t = true)) ∧
      ∀ front t back, g.topologicalOrder start = front ++ t :: back →
        ∀ s, g.Joins s t → s ∈ front := by
  obtain ⟨waiting, finished⟩ :=
    (draining_start g start).drain closed g.numVertices (by simp)
  rw [List.nil_append] at finished
  change g.Draining start (g.topologicalOrder start) [] waiting at finished
  refine ⟨by simpa using finished.nodup, ?_, finished.sources⟩
  intro t
  constructor
  · intro member
    have bound := finished.bounded t (by simpa using member)
    obtain ⟨zero, accepted⟩ := (finished.ready t bound).mp (by simpa using member)
    exact ⟨bound, awaited_eq_zero_iff.mp zero, accepted⟩
  · intro given
    obtain ⟨bound, listed, accepted⟩ := given
    simpa using (finished.ready t bound).mpr ⟨awaited_eq_zero_iff.mpr listed, accepted⟩

/-! ## Cycles -/

/-- No vertex is reached from itself along one or more edges. -/
def Acyclic (g : Graph) : Prop := ∀ v, ¬ Relation.TransGen g.Joins v v

/-- A number for every vertex that grows along edges excludes cycles. -/
theorem acyclic_of_rank (rank : VertexId → Nat) (grows : ∀ s t, g.Joins s t → rank s < rank t) :
    g.Acyclic := by
  have later : ∀ s t, Relation.TransGen g.Joins s t → rank s < rank t := by
    intro s t path
    induction path with
    | single joins => exact grows _ _ joins
    | tail _ joins ih => exact Nat.lt_trans ih (grows _ _ joins)
  intro v cycle
  exact Nat.lt_irrefl _ (later v v cycle)

/-! ## What is listed -/

/-- Backwards from vertices that lie on no cycle one cannot go on forever. -/
theorem wellFounded_paths :
    WellFounded fun s t : Fin g.numVertices =>
      Relation.TransGen g.Joins s t ∧ ¬ Relation.TransGen g.Joins s s := by
  have irreflexive : Std.Irrefl fun s t : Fin g.numVertices =>
      Relation.TransGen g.Joins s t ∧ ¬ Relation.TransGen g.Joins s s :=
    ⟨fun _ given => given.2 given.1⟩
  have transitive : IsTrans (Fin g.numVertices) fun s t =>
      Relation.TransGen g.Joins s t ∧ ¬ Relation.TransGen g.Joins s s :=
    ⟨fun _ _ _ first second => ⟨first.1.trans second.1, first.2⟩⟩
  exact Finite.wellFounded_of_trans_of_irrefl _

section Paths

variable (closed : g.Closed)

include closed

theorem idxOf_lt_of_joins (joins : g.Joins s t) (listed : t ∈ g.topologicalOrder start) :
    (g.topologicalOrder start).idxOf s < (g.topologicalOrder start).idxOf t := by
  obtain ⟨unique, -, sources⟩ := topologicalOrder_spec closed start
  obtain ⟨front, back, shape⟩ := List.append_of_mem listed
  have before := sources front t back shape s joins
  have fresh : t ∉ front := by
    intro member
    rw [shape] at unique
    exact (List.nodup_append.mp unique).2.2 _ member _ List.mem_cons_self rfl
  rw [shape, List.idxOf_append_of_mem before, List.idxOf_append_of_notMem fresh,
    List.idxOf_cons_self]
  have position := List.idxOf_lt_length_iff.mpr before
  omega

theorem listed_of_path (path : Relation.ReflTransGen g.Joins s t)
    (listed : t ∈ g.topologicalOrder start) : s ∈ g.topologicalOrder start := by
  induction path with
  | refl => exact listed
  | tail _ joins ih =>
      exact ih ((((topologicalOrder_spec closed start).2.1 _).mp listed).2.1 _ joins)

theorem idxOf_lt_of_path (path : Relation.TransGen g.Joins s t)
    (listed : t ∈ g.topologicalOrder start) :
    (g.topologicalOrder start).idxOf s < (g.topologicalOrder start).idxOf t := by
  induction path with
  | single joins => exact idxOf_lt_of_joins closed joins listed
  | tail _ joins ih =>
      exact Nat.lt_trans (ih (listed_of_path closed (.single joins) listed))
        (idxOf_lt_of_joins closed joins listed)

/-- The listing leaves out exactly the vertices that are reached from a cycle or from a vertex
without incoming edges that is not accepted. -/
theorem mem_topologicalOrder_iff :
    t ∈ g.topologicalOrder start ↔ t < g.numVertices ∧
      ∀ s, Relation.ReflTransGen g.Joins s t →
        ¬ Relation.TransGen g.Joins s s ∧ (g.inDegree s = 0 → start s = true) := by
  have members := (topologicalOrder_spec closed start).2.1
  constructor
  · intro listed
    refine ⟨((members t).mp listed).1, fun s path => ?_⟩
    have reached := listed_of_path closed path listed
    exact ⟨fun cycle => Nat.lt_irrefl _ (idxOf_lt_of_path closed cycle reached),
      ((members s).mp reached).2.2⟩
  · intro given
    obtain ⟨bound, free⟩ := given
    -- All vertices before a free one are free, so they are listed earlier.
    have listed (v : Fin g.numVertices) (free : ∀ s, Relation.ReflTransGen g.Joins s v →
        ¬ Relation.TransGen g.Joins s s ∧ (g.inDegree s = 0 → start s = true)) :
        v.1 ∈ g.topologicalOrder start := by
      induction v using wellFounded_paths.induction with
      | _ v ih =>
          refine (members v).mpr ⟨v.2, fun s joins => ?_, (free v .refl).2⟩
          obtain ⟨e, inside, rfl, -⟩ := id joins
          exact ih ⟨e.source, (closed e inside).1⟩
            ⟨.single joins, (free e.source (.single joins)).1⟩
            fun u path => free u (path.tail joins)
    exact listed ⟨t, bound⟩ free

end Paths

/-- Without cycles every vertex is listed if only accepted vertices lead to it. -/
theorem Acyclic.mem_topologicalOrder (acyclic : g.Acyclic) (closed : g.Closed)
    {start : VertexId → Bool} (bound : t < g.numVertices)
    (accepted : ∀ s, Relation.ReflTransGen g.Joins s t → start s = true) :
    t ∈ g.topologicalOrder start :=
  (mem_topologicalOrder_iff closed).mpr
    ⟨bound, fun s path => ⟨acyclic s, fun _ => accepted s path⟩⟩

/-- The listing without exceptions has as many entries as there are vertices exactly if there is
no cycle. -/
theorem isCyclic_eq_false_iff (closed : g.Closed) : g.isCyclic = false ↔ g.Acyclic := by
  have unique := (topologicalOrder_spec closed fun _ => true).1
  have included : g.topologicalOrder (fun _ => true) ⊆ List.range g.numVertices := fun v member =>
    List.mem_range.mpr ((mem_topologicalOrder_iff closed).mp member).1
  have complete : g.isCyclic = false ↔
      ∀ v, v < g.numVertices → v ∈ g.topologicalOrder fun _ => true := by
    simp only [isCyclic, ne_eq, decide_not, Bool.not_eq_false', decide_eq_true_eq]
    constructor
    · intro length v bound
      have perm := (List.subperm_of_subset unique included).perm_of_length_le (by simp [length])
      exact perm.mem_iff.mpr (List.mem_range.mpr bound)
    · intro all
      have reverse : List.range g.numVertices ⊆ g.topologicalOrder fun _ => true := fun v member =>
        all v (List.mem_range.mp member)
      have perm := (List.perm_ext_iff_of_nodup unique List.nodup_range).mpr fun v =>
        ⟨fun member => included member, fun member => reverse member⟩
      simpa using perm.length_eq
  rw [complete]
  constructor
  · intro all v cycle
    obtain ⟨t, joins, -⟩ := Relation.TransGen.head'_iff.mp cycle
    obtain ⟨e, inside, rfl, -⟩ := joins
    exact ((mem_topologicalOrder_iff closed).mp (all e.source (closed e inside).1)).2
      e.source .refl |>.1 cycle
  · intro acyclic v bound
    exact acyclic.mem_topologicalOrder closed bound fun _ _ => rfl

end CircuitDag.Graph
