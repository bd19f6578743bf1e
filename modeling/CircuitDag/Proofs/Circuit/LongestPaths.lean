import CircuitDag.Proofs.Circuit.Depth
import Mathlib.Algebra.BigOperators.Group.List.Basic
import Mathlib.Algebra.GroupWithZero.Nat
import Mathlib.Data.List.Chain

/-!
# Longest paths

Along the topological listing every vertex gets a path that is as long as any path over one of its
predecessors. At the end no path of the graph has more operations than the one that is traced back
from the output with the longest path, and this one begins at an input.
-/

set_option autoImplicit false

namespace CircuitDag

/-! ## Counts -/

/-- The counts of all elements add up to the number of elements that are counted. -/
theorem Element.sum_counts (es : List Element) : ((counts es).map Prod.snd).sum = es.length := by
  have listed : ∀ kinds : List Element, ((kinds.filterMap fun e =>
      if es.count e = 0 then none else some (e, es.count e)).map Prod.snd).sum =
        (kinds.map fun e => es.count e).sum := by
    intro kinds
    induction kinds with
    | nil => rfl
    | cons e kinds ih =>
        rw [List.map_cons, List.sum_cons, ← ih, List.filterMap_cons]
        by_cases absent : es.count e = 0
        · simp only [absent, ↓reduceIte, Nat.zero_add]
        · simp only [absent, ↓reduceIte, List.map_cons, List.sum_cons]
  have once : ∀ e, (all.map fun kind => if kind = e then 1 else 0).sum = 1 := by
    intro e
    cases e <;> rfl
  refine (listed all).trans ?_
  clear listed
  induction es with
  | nil => simp
  | cons e es ih =>
      simp only [List.count_cons, List.sum_map_add, ih, List.length_cons, beq_iff_eq]
      exact congrArg (es.length + ·) (by simpa only [eq_comm] using once e)

namespace Circuit

variable {c : Circuit} {line : WireId → List VertexId} {side : Side} {u v x : VertexId} {w : WireId}
  {r : Record} {done : List VertexId} {paths : PathLengths}

/-- The number of operations among some vertices. -/
def operationsOn (c : Circuit) (vs : List VertexId) : Nat := vs.countP c.isOperation

/-- A path of the graph: every vertex is joined to the next one by an edge. -/
def IsPath (c : Circuit) (vs : List VertexId) : Prop := vs.IsChain c.graph.Joins

/-- The counts for a list of vertices add up to its operations. -/
theorem sum_countElements (c : Circuit) (vs : List VertexId) :
    ((c.countElements vs).map Prod.snd).sum = c.operationsOn vs := by
  rw [countElements, Element.sum_counts, List.length_map, operationsOn, Records.select]
  induction vs with
  | nil => rfl
  | cons v vs ih =>
      rw [List.countP_cons, ← ih, List.filterMap_cons, isOperation]
      cases c.records.get? v with
      | none => rfl
      | some r =>
          simp only [Option.map_some, List.filter_cons]
          split <;> simp

/-- A vertex on a line adds to a path what it adds to the number of operations. -/
theorem Layout.pathWeight_eq (layout : c.Layout line) (member : v ∈ line w) :
    c.pathWeight v = if c.isOperation v then 1 else 0 := by
  obtain ⟨r, live, -⟩ := layout.carries member
  rw [Circuit.pathWeight_eq live.1, isOperation, live.1]
  simp only [live.2, Bool.not_false, Bool.and_true, Bool.not_eq_true']
  cases r.isAnchor <;> rfl

theorem Layout.numOperationsOf_eq (layout : c.Layout line) {vs : List VertexId}
    (members : ∀ v ∈ vs, ∃ w, v ∈ line w) : c.numOperationsOf vs = c.operationsOn vs := by
  induction vs with
  | nil => rfl
  | cons v vs ih =>
      obtain ⟨⟨w, member⟩, rest⟩ := List.forall_mem_cons.mp members
      rw [numOperationsOf_cons, ih rest, layout.pathWeight_eq member, operationsOn, operationsOn,
        List.countP_cons, Nat.add_comm]

/-! ## Paths to the vertices -/

/-- The paths to some vertices go over edges, begin where no edge leads to, and are as long as any
path over a predecessor. -/
structure Optimal (c : Circuit) (done : List VertexId) (paths : PathLengths) : Prop where
  joined : ∀ v ∈ done, ∀ u, paths.previous[v]?.join = some u → c.graph.Joins u v
  begins : ∀ v ∈ done, paths.previous[v]?.join = none → ∀ u, ¬ c.graph.Joins u v
  longest : ∀ v ∈ done, ∀ u, c.graph.Joins u v →
    u ∈ done ∧ paths.to u + c.pathWeight v ≤ paths.to v

theorem Layout.mem_neighbors_iff_joins (layout : c.Layout line) (live : c.records.Live v r) :
    u ∈ c.neighbors .incoming v ↔ c.graph.Joins u v := by
  rw [Circuit.neighbors, live.1, layout.joins_iff]
  refine (layout.mem_neighbors_iff live).trans ⟨fun given => ?_, fun given => ?_⟩
  · obtain ⟨w, -, beside⟩ := given
    exact ⟨w, beside⟩
  · obtain ⟨w, adjacent⟩ := given
    obtain ⟨s, live', carried⟩ := layout.carries adjacent.mem_right
    exact ⟨w, live.unique live' ▸ carried, adjacent⟩

/-- The next vertex gets a path over the predecessor with the longest one. -/
theorem Optimal.extend (optimal : c.Optimal done paths) (charted : c.Charted line done paths)
    (layout : c.Layout line) (live : c.records.Live v r) (fresh : v ∉ done)
    (before : ∀ w a, Adjacent (line w) a v → a ∈ done) :
    c.Optimal (done ++ [v]) (c.extendPath paths v) := by
  have lengthBound : v < paths.length.size := charted.length_size ▸ live.lt_size
  have early : ∀ u, c.graph.Joins u v → u ∈ done := by
    intro u joins
    obtain ⟨w, adjacent⟩ := layout.joins_iff.mp joins
    exact before w u adjacent
  have spec := lastMax?_spec paths.to (c.neighbors .incoming v)
  constructor
  · intro x member
    rcases List.mem_append.mp member with old | new
    · rw [charted.previous_kept live fresh old]
      exact optimal.joined x old
    · obtain rfl := List.mem_singleton.mp new
      intro u best
      rw [charted.previous_next live] at best
      rw [best] at spec
      exact (layout.mem_neighbors_iff_joins live).mp spec.1
  · intro x member
    rcases List.mem_append.mp member with old | new
    · rw [charted.previous_kept live fresh old]
      exact optimal.begins x old
    · obtain rfl := List.mem_singleton.mp new
      intro none u joins
      rw [charted.previous_next live] at none
      rw [none] at spec
      have inside := (layout.mem_neighbors_iff_joins live).mpr joins
      rw [spec] at inside
      cases inside
  · intro x member u joins
    rcases List.mem_append.mp member with old | new
    · obtain ⟨inDone, length⟩ := optimal.longest x old u joins
      refine ⟨List.mem_append_left _ inDone, ?_⟩
      rw [charted.to_kept live fresh old, charted.to_kept live fresh inDone]
      exact length
    · obtain rfl := List.mem_singleton.mp new
      have inDone := early u joins
      refine ⟨List.mem_append_left _ inDone, ?_⟩
      have inside := (layout.mem_neighbors_iff_joins live).mpr joins
      have bounded := (highest_eq_iff.mp (rfl : highest paths.to (c.neighbors .incoming x) = _)).1
      rw [charted.to_kept live fresh inDone, to_extendPath lengthBound, if_pos rfl]
      exact Nat.add_le_add_right (bounded u inside) _

/-- Along the topological listing the paths get as long as they can be. -/
theorem Layout.optimal (layout : c.Layout line) :
    c.Optimal c.topologicalVertices c.pathLengths := by
  let holds (done : List VertexId) (paths : PathLengths) : Prop :=
    c.Charted line done paths ∧ c.Optimal done paths
  have both : holds c.topologicalVertices c.pathLengths := by
    refine layout.along_listing ⟨charted_nil c line, nofun, nofun, nofun⟩ ?_
    intro done v r paths live fresh before both
    exact ⟨both.1.extend layout live fresh before, both.2.extend both.1 layout live fresh before⟩
  exact both.2

/-! ## Bounds for all paths -/

/-- The vertices of a path that ends on a line are on lines. -/
theorem Layout.mem_line_of_isPath (layout : c.Layout line) {vs : List VertexId} (path : c.IsPath vs)
    (last : vs.getLast? = some v) (member : v ∈ line w) : ∀ x ∈ vs, ∃ y, x ∈ line y := by
  induction vs with
  | nil => exact nofun
  | cons a vs ih =>
      cases vs with
      | nil =>
          obtain rfl := Option.some.inj last
          exact List.forall_mem_singleton.mpr ⟨w, member⟩
      | cons b vs =>
          obtain ⟨joins, rest⟩ := List.isChain_cons_cons.mp path
          obtain ⟨y, adjacent⟩ := layout.joins_iff.mp joins
          exact List.forall_mem_cons.mpr ⟨⟨y, adjacent.mem_left⟩,
            ih rest (List.getLast?_cons_cons.symm.trans last)⟩

/-- The path that is computed for a vertex has as many operations as any path that ends there. -/
theorem Layout.operationsOn_le_to (layout : c.Layout line) {front : List VertexId}
    (member : v ∈ line w) (path : c.IsPath (front ++ [v])) :
    c.operationsOn (front ++ [v]) ≤ c.pathLengths.to v := by
  have listed : ∀ {x y}, x ∈ line y → x ∈ c.topologicalVertices := fun stands =>
    (layout.linearizes.mem_iff _).mpr ⟨_, stands⟩
  induction front using List.reverseRecOn generalizing v w with
  | nil =>
      obtain ⟨done, rest, shape⟩ := List.append_of_mem (listed member)
      have arrived := layout.charted.arrives done v rest shape
      have enough : c.pathWeight v ≤ c.pathLengths.to v := by
        rw [Arrives] at arrived
        split at arrived
        · exact arrived.ge
        · rw [arrived.2]
          exact Nat.le_add_left ..
      rw [layout.pathWeight_eq member] at enough
      simpa only [operationsOn, List.nil_append, List.countP_singleton] using enough
  | append_singleton front u ih =>
      obtain ⟨before, -, last⟩ := List.isChain_append.mp path
      have joins : c.graph.Joins u v := last u (by simp) v (by simp)
      obtain ⟨y, adjacent⟩ := layout.joins_iff.mp joins
      have shorter := ih adjacent.mem_left before
      have step := (layout.optimal.longest v (listed member) u joins).2
      rw [layout.pathWeight_eq member] at step
      rw [operationsOn, List.countP_append, List.countP_singleton]
      exact Nat.le_trans (Nat.add_le_add_right shorter _) step

/-- Paths do not get shorter along a line. -/
theorem Layout.to_le_output (layout : c.Layout line) (member : v ∈ line w) :
    ∃ o, c.outputs[w]? = some o ∧ c.pathLengths.to v ≤ c.pathLengths.to o := by
  have step : ∀ a b, Adjacent (line w) a b → c.pathLengths.to a ≤ c.pathLengths.to b := by
    intro a b adjacent
    have listed := (layout.linearizes.mem_iff b).mpr ⟨w, adjacent.mem_right⟩
    have longer := (layout.optimal.longest b listed a (layout.joins_iff.mpr ⟨w, adjacent⟩)).2
    exact Nat.le_trans (Nat.le_add_right ..) longer
  obtain ⟨front, back, shape⟩ := List.append_of_mem member
  have tip := layout.tips .outgoing w
  rcases List.eq_nil_or_concat back with rfl | ⟨middle, o, rfl⟩
  · refine ⟨v, tip.symm.trans ?_, Nat.le_refl _⟩
    rw [shape]
    exact List.getLast?_concat ..
  · refine ⟨o, tip.symm.trans ?_, ?_⟩
    · rw [shape, List.concat_eq_append, ← List.cons_append, ← List.append_assoc]
      exact List.getLast?_concat ..
    · refine rel_of_adjacent (fun a b => c.pathLengths.to a ≤ c.pathLengths.to b) Nat.le_trans
        front middle [] fun a b adjacent => step a b ?_
      rw [shape]
      simpa using adjacent

/-- No path has more operations than the paths to the outputs. -/
theorem Layout.operationsOn_le (layout : c.Layout line) {bound : Nat}
    (outputs : ∀ (x : WireId) o, c.outputs[x]? = some o → c.pathLengths.to o ≤ bound)
    {path : List VertexId} (isPath : c.IsPath path) : c.operationsOn path ≤ bound := by
  rcases List.eq_nil_or_concat path with rfl | ⟨front, v, rfl⟩
  · exact Nat.zero_le _
  rw [List.concat_eq_append] at isPath ⊢
  by_cases stands : ∃ w, v ∈ line w
  · obtain ⟨w, member⟩ := stands
    obtain ⟨o, output, longer⟩ := layout.to_le_output member
    exact Nat.le_trans (layout.operationsOn_le_to member isPath)
      (Nat.le_trans longer (outputs w o output))
  · -- No edge leads to a vertex off the lines, so the path has no other vertex.
    have alone : front = [] := by
      rcases List.eq_nil_or_concat front with none | ⟨front, u, rfl⟩
      · exact none
      · have joins : c.graph.Joins u v :=
          (List.isChain_append.mp isPath).2.2 u (by simp) v (by simp)
        obtain ⟨w, adjacent⟩ := layout.joins_iff.mp joins
        exact absurd ⟨w, adjacent.mem_right⟩ stands
    have gone : c.isOperation v = false := by
      rw [Bool.eq_false_iff, ne_eq, isOperation_iff]
      intro operation
      obtain ⟨r, live, -⟩ := operation
      obtain ⟨w, carried⟩ := List.exists_mem_of_ne_nil _ (layout.wired v r live).nonempty
      exact stands ⟨w, layout.covered v w ⟨r, live, carried⟩⟩
    rw [alone, operationsOn, List.nil_append, List.countP_singleton, gone]
    exact Nat.zero_le _

/-! ## The path that is traced back -/

/-- Tracing back goes over edges, keeps the end of the path and stops where no edge leads to. More
fuel than vertices before the start changes nothing. -/
theorem Layout.tracePath_spec (layout : c.Layout line) {front back : List VertexId}
    (shape : c.topologicalVertices = front ++ v :: back) {fuel : Nat} (enough : front.length < fuel)
    {rest : List VertexId} (path : c.IsPath (v :: rest)) :
    let traced := tracePath c.pathLengths.previous fuel v (v :: rest)
    c.IsPath traced ∧ traced.getLast? = (v :: rest).getLast? ∧
      (∃ first ∈ c.topologicalVertices, traced.head? = some first ∧ ∀ u, ¬ c.graph.Joins u first) ∧
      ∀ extra, tracePath c.pathLengths.previous (fuel + extra) v (v :: rest) = traced := by
  have listed : v ∈ c.topologicalVertices := shape ▸ by simp
  induction fuel generalizing v front back rest with
  | zero => exact absurd enough (Nat.not_lt_zero _)
  | succ fuel ih =>
      have arrived := layout.charted.arrives front v back shape
      rw [Arrives] at arrived
      simp only [tracePath, Nat.succ_add]
      cases previous : c.pathLengths.previous[v]?.join with
      | none =>
          exact ⟨path, rfl, ⟨v, listed, rfl, layout.optimal.begins v listed previous⟩, fun _ => rfl⟩
      | some u =>
          rw [previous] at arrived
          obtain ⟨early, -⟩ := arrived
          obtain ⟨front, middle, rfl⟩ := List.append_of_mem early
          have shorter : front.length < fuel := by
            simp only [List.length_append, List.length_cons] at enough
            omega
          have joins := layout.optimal.joined v listed u previous
          have longer : c.IsPath (u :: v :: rest) := List.isChain_cons_cons.mpr ⟨joins, path⟩
          have split : c.topologicalVertices = front ++ u :: (middle ++ v :: back) := by
            simp [shape]
          obtain ⟨chain, last, first, settled⟩ := ih split shorter longer (split ▸ by simp)
          exact ⟨chain, last.trans List.getLast?_cons_cons, first, settled⟩

/-- A vertex on a line to which no edge leads is an input. -/
theorem Layout.input_of_not_joins (layout : c.Layout line) (member : v ∈ line w)
    (free : ∀ u, ¬ c.graph.Joins u v) : ∃ r, c.records.Live v r ∧ r.element = .input := by
  rcases tip_or_beside member .incoming with tip | ⟨u, beside⟩
  · obtain ⟨r, live, element, -⟩ := layout.live_of_tip? tip
    exact ⟨r, live, element⟩
  · exact absurd (layout.joins_iff.mpr ⟨w, beside⟩) (free u)

/-- The longest path begins at an input and ends at an output, it goes over edges, and no path of
the graph has more operations. Tracing it back is not cut short by its fuel. -/
theorem longestPath_is_longest (reachable : c.Reachable) :
    (0 < c.numWires → ∃ first last, c.longestPath.head? = some first ∧
      c.longestPath.getLast? = some last ∧ (∃ r, c.records.Live first r ∧ r.element = .input) ∧
      (∃ r, c.records.Live last r ∧ r.element = .output) ∧
      ∀ extra, tracePath c.pathLengths.previous (c.records.size + extra) last [last] =
        c.longestPath) ∧
    (c.numWires = 0 → c.longestPath = [] ∧ c.depth = 0) ∧
    c.IsPath c.longestPath ∧
    (∀ path, c.IsPath path → c.operationsOn path ≤ c.operationsOn c.longestPath) ∧
    c.depth = c.operationsOn c.longestPath ∧
    (c.longestPathCounts.map Prod.snd).sum = c.depth := by
  obtain ⟨line, layout⟩ := reachable.laidOut
  have depth : c.depth = c.numOperationsOf c.longestPath := rfl
  have counts : (c.longestPathCounts.map Prod.snd).sum = c.operationsOn c.longestPath :=
    sum_countElements c c.longestPath
  rw [counts, depth]
  rcases layout.longestPath_cases with ⟨none, path⟩ | ⟨w, last, output, path, largest⟩
  · rw [path]
    refine ⟨fun wires => absurd none wires.ne', fun _ => ⟨rfl, rfl⟩, List.isChain_nil, ?_, rfl, rfl⟩
    refine fun path isPath => layout.operationsOn_le (fun x o output => ?_) isPath
    have bound : x < c.outputs.size := (Array.getElem?_eq_some_iff.mp output).1
    exact absurd (none ▸ layout.sizes .outgoing ▸ bound) (Nat.not_lt_zero x)
  · obtain ⟨member, -⟩ := layout.level_of_output output
    obtain ⟨front, back, shape, enough⟩ := layout.exists_listed member
    obtain ⟨isPath, ends, ⟨first, listed, begins, free⟩, settled⟩ :=
      layout.tracePath_spec shape enough (List.isChain_singleton last)
    obtain ⟨y, start⟩ := (layout.linearizes.mem_iff first).mp listed
    obtain ⟨r, live, element, -⟩ := layout.live_of_tip? ((layout.tips .outgoing w).trans output)
    have length := layout.numOperationsOf_tracePath member
    rw [← path] at isPath ends begins settled length
    have onLines := layout.mem_line_of_isPath isPath ends member
    have operations := layout.numOperationsOf_eq onLines
    refine ⟨fun _ => ⟨first, last, begins, ends, layout.input_of_not_joins start free,
      ⟨r, live, element⟩, settled⟩, fun none => ?_, isPath, ?_, operations, operations.symm⟩
    · have bound : w < c.outputs.size := (Array.getElem?_eq_some_iff.mp output).1
      exact absurd (none ▸ layout.sizes .outgoing ▸ bound) (Nat.not_lt_zero w)
    · rw [← operations, length]
      exact fun path isPath => layout.operationsOn_le largest isPath

/-- A Hadamard gate and a controlled not gate behind it. -/
theorem longestPath_of_bell :
    let c := Change.after (Change.after (blank 2 0)
      (.addOperation { element := .h } [0] [])) (.addOperation { element := .cx } [0, 1] [])
    c.longestPath = [0, 4, 5, 3] ∧ c.depth = 2 ∧
      ∀ path, c.IsPath path → c.operationsOn path ≤ 2 := by
  intro c
  have reachable : c.Reachable := ((Reachable.blank 2 0 Binary64.zero).change
    (.addOperation { element := .h } [0] [])).change (.addOperation { element := .cx } [0, 1] [])
  obtain ⟨-, -, -, bounded, depth, -⟩ := longestPath_is_longest reachable
  have path : c.longestPath = [0, 4, 5, 3] := by decide +kernel
  have two : c.depth = 2 := by decide +kernel
  exact ⟨path, two, fun path isPath => Nat.le_trans (bounded path isPath) (depth ▸ two.le)⟩

end Circuit

end CircuitDag
