import CircuitDag.Proofs.Circuit.Contiguity
import CircuitDag.Proofs.Pass.Pairs

/-!
# Sweeps

A pair that cancels is a block, so it can be removed; the other pairs of the same search still
cancel afterwards. A sweep therefore removes all the pairs that it has found, and sweeps go on until
one finds nothing or their number is used up.
-/

set_option autoImplicit false

namespace CircuitDag

/-- The circuit after one sweep. -/
def sweepOnce (accept : Element → Bool) (c : Circuit) : Circuit :=
  (removePairs (c.cancellablePairs accept)).after c

namespace Circuit

variable {c c' c'' : Circuit} {line : WireId → List VertexId} {accept : Element → Bool}
  {u v x : VertexId} {w : WireId} {r s : Record} {block block' : List VertexId} {side : Side}

/-! ## Pairs beside the ones that are removed -/

theorem Twins.without (twins : c.Twins line accept v u r s) (without : c.Without line block c')
    (left : v ∉ block) (right : u ∉ block) : ∃ r' s',
      c'.Twins (Graph.cutLine line block) accept v u r' s' ∧ r'.element = r.element := by
  obtain ⟨r', live, bare⟩ := without.live left twins.left
  obtain ⟨s', live', bare'⟩ := without.live right twins.right
  have element := Record.element_of_bare bare
  refine ⟨r', s', ⟨live, live', ?_, ?_, ?_, ?_, ?_, fun w member => ?_⟩, element⟩
  · rw [Record.isAnchor, element]
    exact twins.operation
  · rw [element]
    exact twins.accepted
  · rw [Record.element_of_bare bare', element, twins.element]
  · have params : ∀ {a b : Record}, a.bare = b.bare → a.params = b.params := fun same =>
      congrArg Operation.params (Record.operation_of_bare same)
    rw [params bare', params bare, twins.params]
  · rw [Record.wires_of_bare bare', Record.wires_of_bare bare, twins.wires]
  · rw [Record.wires_of_bare bare] at member
    exact (twins.adjacent w member).filter (by simpa using left) (by simpa using right)

/-! ## Removing a pair -/

theorem Twins.operation' (twins : c.Twins line accept v u r s) : s.isAnchor = false := by
  rw [Record.isAnchor, twins.element]
  exact twins.operation

/-- A pair that cancels is a block: nothing stands between its two members on their wires. -/
theorem Twins.isBlock (twins : c.Twins line accept v u r s) (layout : c.Layout line) :
    c.IsBlock [v, u] := by
  have different := twins.ne layout
  obtain ⟨w, member⟩ := List.exists_mem_of_ne_nil _ (layout.wired v r twins.left).nonempty
  obtain ⟨i, position⟩ := List.getElem?_of_mem member
  have unique := (layout.strung w).nodup
  have next := twins.adjacent w member
  refine ⟨?_, by simpa using different, fun x => ?_, ?_, ?_⟩
  · intro x inside
    simp only [List.mem_cons, List.not_mem_nil, or_false] at inside
    rcases inside with rfl | rfl
    · exact ⟨r, twins.left, twins.operation⟩
    · exact ⟨s, twins.right, twins.operation'⟩
  · rw [layout.wireVertices_eq]
    by_cases carried : x ∈ r.wires
    · exact (twins.adjacent x carried).contiguous (layout.strung x).nodup
    · refine contiguous_of_apart fun y onLine inside => carried ?_
      obtain ⟨t, live, member'⟩ := layout.carries onLine
      simp only [List.mem_cons, List.not_mem_nil, or_false] at inside
      rcases inside with rfl | rfl
      · exact twins.left.unique live ▸ member'
      · exact twins.wires ▸ twins.right.unique live ▸ member'
  · obtain ⟨x, before, -⟩ := layout.port?_operation twins.left twins.operation position .incoming
    refine ⟨v, rfl, layout.leadsOut_iff.mpr ⟨w, x, before, ?_⟩⟩
    simpa using Beside.ne_of_opposite unique (show Beside (line w) .outgoing v u from next) before
  · obtain ⟨x, behind, -⟩ := layout.port?_operation twins.right twins.operation'
      (twins.wires ▸ position) .outgoing
    refine ⟨u, rfl, layout.leadsOut_iff.mpr ⟨w, x, behind, ?_⟩⟩
    simpa [and_comm] using
      Beside.ne_of_opposite unique (show Beside (line w) .incoming u v from next) behind

theorem Layout.removePair (layout : c.Layout line) (twins : c.Twins line accept v u r s) :
    ∃ c', (removeBlock [v, u]).run c = .ok () c' ∧ c.Without line [v, u] c' := by
  obtain ⟨c', run⟩ := layout.removes_iff.mpr
    ⟨_, mapM_current?_none [v, u], .inr (twins.isBlock layout)⟩
  obtain ⟨block, chosen, -, -, excised⟩ := layout.excised_of_removeBlock run
  obtain rfl := Option.some.inj (chosen.symm.trans (mapM_current?_none [v, u]))
  exact ⟨c', run, excised.toWithout⟩

theorem Layout.meaning_removePair {M : Type*} [Monoid M] (I : Interpretation M)
    (layout : c.Layout line) (twins : c.Twins line accept v u r s)
    (without : c.Without line [v, u] c') (involution : r.element.isInvolution = true) :
    I.meaning c' = I.meaning c :=
  layout.meaning_cut twins.left twins.right twins.element twins.params twins.wires involution
    twins.adjacent without.layout fun x fresh fresh' =>
      without.vertex_eq I (by simp [fresh, fresh'])

/-! ## Removing all pairs -/

theorem Cancellable.without (cancellable : c.Cancellable accept v u) (layout : c.Layout line)
    (without : c.Without line block c') (left : v ∉ block) (right : u ∉ block) :
    c'.Cancellable accept v u := by
  obtain ⟨r, s, twins⟩ := layout.cancellable_iff.mp cancellable
  obtain ⟨r', s', twins', -⟩ := twins.without without left right
  exact without.layout.cancellable_iff.mpr ⟨r', s', twins'⟩

/-- The first of some disjoint pairs is removed, and the others still cancel. -/
theorem Layout.removeFirst (layout : c.Layout line) {pairs : List (VertexId × VertexId)}
    (cancellable : ∀ a b, (a, b) ∈ (v, u) :: pairs → c.Cancellable accept a b)
    (unique : (pairVertices ((v, u) :: pairs)).Nodup) :
    ∃ r s c', c.Twins line accept v u r s ∧ (removeBlock [v, u]).run c = .ok () c' ∧
      c.Without line [v, u] c' ∧ (∀ a b, (a, b) ∈ pairs → c'.Cancellable accept a b) ∧
      (pairVertices pairs).Nodup := by
  have split : pairVertices ((v, u) :: pairs) = [v, u] ++ pairVertices pairs := rfl
  rw [split] at unique
  obtain ⟨-, rest, apart⟩ := List.nodup_append.mp unique
  obtain ⟨r, s, twins⟩ := layout.cancellable_iff.mp (cancellable v u List.mem_cons_self)
  obtain ⟨c', run, without⟩ := layout.removePair twins
  refine ⟨r, s, c', twins, run, without, fun a b member => ?_, rest⟩
  have fresh : ∀ x, x = a ∨ x = b → x ∉ [v, u] := by
    intro x chosen inside
    refine apart x inside x ?_ rfl
    exact List.mem_flatMap.mpr ⟨(a, b), member, by simpa using chosen⟩
  exact (cancellable a b (List.mem_cons_of_mem _ member)).without layout without
    (fresh a (.inl rfl)) (fresh b (.inr rfl))

theorem removePairs_cons_run {pairs : List (VertexId × VertexId)}
    (run : (removeBlock [v, u]).run c = .ok () c') :
    (removePairs ((v, u) :: pairs)).run c = (removePairs pairs).run c' := by
  have unroll : removePairs ((v, u) :: pairs) = (do removeBlock [v, u]; removePairs pairs) := rfl
  rw [unroll, EStateM.run_bind, run]

theorem Layout.removePairs (layout : c.Layout line) {pairs : List (VertexId × VertexId)}
    (cancellable : ∀ v u, (v, u) ∈ pairs → c.Cancellable accept v u)
    (unique : (pairVertices pairs).Nodup) :
    ∃ c', (removePairs pairs).run c = .ok () c' ∧ c.Without line (pairVertices pairs) c' := by
  induction pairs generalizing c line with
  | nil => exact ⟨c, rfl, layout.without_nil⟩
  | cons pair pairs ih =>
      obtain ⟨v, u⟩ := pair
      obtain ⟨-, -, c₁, -, run, without, later, rest⟩ := layout.removeFirst cancellable unique
      obtain ⟨c₂, runRest, withoutRest⟩ := ih without.layout later rest
      exact ⟨c₂, (removePairs_cons_run run).trans runRest, without.trans withoutRest⟩

theorem Layout.meaning_removePairs {M : Type*} [Monoid M] (I : Interpretation M)
    (layout : c.Layout line) (involutions : ∀ e, accept e = true → e.isInvolution = true)
    {pairs : List (VertexId × VertexId)}
    (cancellable : ∀ v u, (v, u) ∈ pairs → c.Cancellable accept v u)
    (unique : (pairVertices pairs).Nodup) (run : (CircuitDag.removePairs pairs).run c = .ok () c') :
    I.meaning c' = I.meaning c := by
  induction pairs generalizing c line with
  | nil =>
      cases run
      rfl
  | cons pair pairs ih =>
      obtain ⟨v, u⟩ := pair
      obtain ⟨r, s, c₁, twins, first, without, later, rest⟩ :=
        layout.removeFirst cancellable unique
      rw [removePairs_cons_run first] at run
      rw [ih without.layout later rest run, layout.meaning_removePair I twins without
        (involutions _ twins.accepted)]

/-! ## Sweeps -/

/-- A sweep removes the pairs that it has found. -/
theorem Layout.swept (layout : c.Layout line) (accept : Element → Bool) :
    (CircuitDag.removePairs (c.cancellablePairs accept)).run c =
        .ok () (sweepOnce accept c) ∧
      c.Without line (pairVertices (c.cancellablePairs accept)) (sweepOnce accept c) := by
  obtain ⟨cancellable, unique, -⟩ := layout.cancellablePairs_spec accept
  obtain ⟨c', run, without⟩ := layout.removePairs cancellable unique
  have result : sweepOnce accept c = c' := by
    rw [sweepOnce, Edit.after, run]
  rw [result]
  exact ⟨run, without⟩

theorem Layout.meaning_sweepOnce {M : Type*} [Monoid M] (I : Interpretation M)
    (layout : c.Layout line) (involutions : ∀ e, accept e = true → e.isInvolution = true) :
    I.meaning (sweepOnce accept c) = I.meaning c := by
  obtain ⟨cancellable, unique, -⟩ := layout.cancellablePairs_spec accept
  exact layout.meaning_removePairs I involutions cancellable unique (layout.swept accept).1

theorem LaidOut.swept (laid : c.LaidOut) (accept : Element → Bool) :
    (sweepOnce accept c).LaidOut := by
  obtain ⟨line, layout⟩ := laid
  exact ⟨_, (layout.swept accept).2.layout⟩

/-- The sweeps stop at one that finds nothing, and go on with what the others leave. -/
theorem LaidOut.sweep_run (laid : c.LaidOut) (accept : Element → Bool) (fuel : Nat)
    (stats : CancellationStats) :
    (sweep accept (fuel + 1) stats).run c =
      if c.cancellablePairs accept = [] then .ok ⟨stats.pairs, stats.sweeps + 1⟩ c
      else (sweep accept fuel
        ⟨stats.pairs + .ofNat (c.cancellablePairs accept).length, stats.sweeps + 1⟩).run
          (sweepOnce accept c) := by
  obtain ⟨line, layout⟩ := laid
  rw [sweep, EStateM.run_bind, EStateM.run_get]
  simp only [List.isEmpty_iff]
  by_cases none : c.cancellablePairs accept = []
  · rw [if_pos none, if_pos none]
    rfl
  · rw [if_neg none, if_neg none, EStateM.run_bind, (layout.swept accept).1]

end Circuit

end CircuitDag
