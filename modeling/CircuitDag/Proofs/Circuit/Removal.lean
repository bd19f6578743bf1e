import CircuitDag.Proofs.Circuit.Excision
import CircuitDag.Proofs.Circuit.Insertion

/-!
# Removing operations

Removing an operation cuts out a block of one vertex: every wire of the operation passes through it.
-/

set_option autoImplicit false

namespace CircuitDag

/-- How a wire passes through a wire position. -/
def Record.passage? (r : Record) (position : WireId × Nat) : Option Passage := do
  return (position.1, ← r.port? .incoming position.2, ← r.port? .outgoing position.2)

/-- The wires that pass through a vertex, with the ports on both sides. -/
def Record.passages (r : Record) : List Passage := r.wires.zipIdx.filterMap r.passage?

theorem Record.passage?_eq_some_iff {r : Record} {w : WireId} {i : Nat} {passage : Passage} :
    r.passage? (w, i) = some passage ↔ ∃ source target, r.port? .incoming i = some source ∧
      r.port? .outgoing i = some target ∧ passage = (w, source, target) := by
  unfold passage?
  cases r.port? .incoming i <;> cases r.port? .outgoing i <;> simp [eq_comm]

namespace Records

variable {rs : Records} {v : VertexId} {r : Record}

theorem get?_setPort_of_ne {port : Port} (different : port.vertex ≠ v) (side : Side)
    (port? : Option Port) : (rs.setPort side port port?).get? v = rs.get? v := by
  rw [setPort, get?_modify, if_neg different]

theorem get?_link_of_ne {source target : Port} (source_ne : source.vertex ≠ v)
    (target_ne : target.vertex ≠ v) : (rs.link source target).get? v = rs.get? v := by
  rw [link, get?_setPort_of_ne target_ne, get?_setPort_of_ne source_ne]

theorem rewirePositions_run (positions : List (WireId × Nat)) (rs : Records)
    (found : rs.get? v = some r)
    (spliced : ∀ w i, (w, i) ∈ positions → ∃ source target,
      r.port? .incoming i = some source ∧ r.port? .outgoing i = some target ∧
        source.vertex ≠ v ∧ target.vertex ≠ v) :
    let passages := positions.filterMap r.passage?
    ((positions.map Prod.snd).forM (rewirePosition v)).run rs = .ok () (rs.linkAll passages) ∧
      (rs.linkAll passages).get? v = some r := by
  induction positions generalizing rs with
  | nil => exact ⟨rfl, found⟩
  | cons position positions ih =>
      obtain ⟨w, i⟩ := position
      obtain ⟨source, target, before, after, source_ne, target_ne⟩ :=
        spliced w i List.mem_cons_self
      have kept : (rs.link source target).get? v = some r :=
        (get?_link_of_ne source_ne target_ne).trans found
      have step : (rewirePosition v i).run rs = .ok () (rs.link source target) := by
        simp only [rewirePosition, EStateM.run_bind, EStateM.run_get, Records.port?, found,
          Option.bind_some, before, after, EStateM.run_set]
      obtain ⟨run, last⟩ := ih (rs.link source target) kept
        fun w i member => spliced w i (List.mem_cons_of_mem _ member)
      have passage : r.passage? (w, i) = some (w, source, target) :=
        Record.passage?_eq_some_iff.mpr ⟨source, target, before, after, rfl⟩
      rw [List.filterMap_cons_some passage]
      refine ⟨?_, last⟩
      change (rewirePosition v i >>= fun _ =>
        (positions.map Prod.snd).forM (rewirePosition v)).run rs = _
      rw [EStateM.run_bind, step]
      exact run

end Records

namespace Circuit

variable {c : Circuit} {line : WireId → List VertexId} {v : VertexId} {r : Record}

theorem bridgeEdges_eq (found : c.records.get? v = some r) :
    c.bridgeEdges v = (c.graph.clearVertex v).addAll r.passages := by
  unfold bridgeEdges Graph.addAll Record.passages
  rw [List.foldl_filterMap]
  simp only [found]
  congr 1
  funext g ⟨w, i⟩
  unfold Record.passage?
  cases r.port? .incoming i <;> cases r.port? .outgoing i <;> rfl

theorem checkRemovable_eq_ok_iff {s : Record} :
    c.checkRemovable v = .ok s ↔ c.records.Live v s ∧ s.isAnchor = false := by
  unfold checkRemovable Records.Live
  cases found : c.records.get? v with
  | none => simp
  | some r =>
      cases removed : r.removed with
      | true =>
          simp only [removed, ↓reduceIte, Option.some.injEq, reduceCtorEq, false_iff]
          intro given
          obtain ⟨⟨rfl, kept⟩, -⟩ := given
          cases removed.symm.trans kept
      | false =>
          cases anchor : r.isAnchor with
          | true =>
              simp only [removed, anchor, Bool.false_eq_true, ↓reduceIte, Option.some.injEq,
                reduceCtorEq, false_iff]
              intro given
              obtain ⟨⟨rfl, -⟩, operation⟩ := given
              cases anchor.symm.trans operation
          | false =>
              simp only [removed, anchor, Bool.false_eq_true, ↓reduceIte, Option.some.injEq,
                Except.ok.injEq]
              constructor
              · intro same
                obtain rfl := same
                exact ⟨⟨rfl, removed⟩, anchor⟩
              · exact fun h => h.1.1

/-- The neighbours of an operation on one of its wires. -/
theorem Layout.operation_spec (layout : c.Layout line) (live : c.records.Live v r)
    (operation : r.isAnchor = false) {i : Nat} {w : WireId} (position : r.wires[i]? = some w) :
    ∃ front a b back, line w = front ++ a :: v :: b :: back ∧
      r.port? .incoming i = some (c.records.portOn w a) ∧
      r.port? .outgoing i = some (c.records.portOn w b) := by
  have carries : c.records.Carries v w := ⟨r, live, List.mem_of_getElem? position⟩
  obtain ⟨front, a, b, back, shape⟩ :=
    layout.inner live operation (layout.covered v w carries)
  have unique := (layout.wired v r live).nodup
  have before : Adjacent (line w) a v := ⟨front, b :: back, shape⟩
  have after : Adjacent (line w) v b := ⟨front ++ [a], back, by simp [shape]⟩
  refine ⟨front, a, b, back, shape, ?_, ?_⟩
  · rw [← Records.facing_portOn live unique position]
    exact (layout.strung w).incoming a v before
  · rw [← Records.facing_portOn live unique position]
    exact (layout.strung w).outgoing v b after

theorem Layout.passes_operation (layout : c.Layout line) (live : c.records.Live v r)
    (operation : r.isAnchor = false) : c.Passes line [v] r.passages := by
  have members : ∀ w source target, (w, source, target) ∈ r.passages ↔
      ∃ i, r.wires[i]? = some w ∧ r.port? .incoming i = some source ∧
        r.port? .outgoing i = some target := by
    intro w source target
    simp only [Record.passages, List.mem_filterMap, Prod.exists, List.mk_mem_zipIdx_iff_getElem?,
      Record.passage?_eq_some_iff, Prod.mk.injEq]
    constructor
    · intro given
      obtain ⟨x, i, position, s, t, before, after, rfl, rfl, rfl⟩ := given
      exact ⟨i, position, before, after⟩
    · intro given
      obtain ⟨i, position, before, after⟩ := given
      exact ⟨w, i, position, source, target, before, after, rfl, rfl, rfl⟩
  constructor
  · have wires : r.passages.map Prod.fst = r.wires := by
      rw [Record.passages, List.map_filterMap,
        List.filterMap_congr (g := fun position => some position.1), List.filterMap_eq_map',
        List.zipIdx_map_fst]
      intro given position
      obtain ⟨w, i⟩ := given
      obtain ⟨-, a, b, -, -, before, after⟩ :=
        layout.operation_spec live operation (List.mk_mem_zipIdx_iff_getElem?.mp position)
      rw [Record.passage?_eq_some_iff.mpr ⟨_, _, before, after, rfl⟩]
      rfl
    rw [wires]
    exact (layout.wired v r live).nodup
  · intro w given
    obtain ⟨u, member, equal⟩ := given
    obtain rfl := List.mem_singleton.mp equal
    obtain ⟨s, live', carried⟩ := layout.carries member
    obtain rfl := live.unique live'
    obtain ⟨i, position⟩ := List.getElem?_of_mem carried
    obtain ⟨front, a, b, back, -, before, after⟩ :=
      layout.operation_spec live operation position
    exact List.mem_map.mpr ⟨_, (members w _ _).mpr ⟨i, position, before, after⟩, rfl⟩
  · intro w source target member
    obtain ⟨i, position, before, after⟩ := (members w source target).mp member
    obtain ⟨front, a, b, back, shape, before', after'⟩ :=
      layout.operation_spec live operation position
    have split : line w = (front ++ [a]) ++ [v] ++ b :: back := by simp [shape]
    have outer := List.nodup_append.mp (split ▸ (layout.strung w).nodup)
    have inner := List.nodup_append.mp outer.1
    refine ⟨front, a, [v], b, back, split, by simp, ?_, by simp, ?_, ?_, ?_⟩
    · intro x member equal
      exact inner.2.2 x member v (by simp) (List.mem_singleton.mp equal)
    · intro x member equal
      exact outer.2.2 v (by simp) x member (List.mem_singleton.mp equal).symm
    · exact Option.some.inj (before.symm.trans before')
    · exact Option.some.inj (after.symm.trans after')

/-- The neighbours of an operation on all its wires can be joined. -/
theorem Layout.rewireAcross_run (layout : c.Layout line) (live : c.records.Live v r)
    (operation : r.isAnchor = false) :
    (Records.rewireAcross v).run c.records = .ok () (c.records.linkAll r.passages) ∧
      (c.records.linkAll r.passages).get? v = some r := by
  have spliced : ∀ w i, (w, i) ∈ r.wires.zipIdx → ∃ source target,
      r.port? .incoming i = some source ∧ r.port? .outgoing i = some target ∧
        source.vertex ≠ v ∧ target.vertex ≠ v := by
    intro w i position
    obtain ⟨front, a, b, back, shape, before, after⟩ :=
      layout.operation_spec live operation (List.mk_mem_zipIdx_iff_getElem?.mp position)
    have unique := (layout.strung w).nodup
    have left : Adjacent (line w) a v := ⟨front, b :: back, shape⟩
    have right : Adjacent (line w) v b := ⟨front ++ [a], back, by simp [shape]⟩
    exact ⟨_, _, before, after, left.ne unique, (right.ne unique).symm⟩
  obtain ⟨run, found⟩ := Records.rewirePositions_run r.wires.zipIdx c.records live.1 spliced
  rw [List.zipIdx_map_snd, ← List.range_eq_range'] at run
  refine ⟨?_, found⟩
  simp only [Records.rewireAcross, EStateM.run_bind, EStateM.run_get, live.1, live.2, operation,
    Bool.false_eq_true, ↓reduceIte]
  exact run

theorem Layout.removeOperation_run (layout : c.Layout line) (live : c.records.Live v r)
    (operation : r.isAnchor = false) :
    (removeOperation v).run c = .ok r.operation (c.excise [v] r.passages) := by
  obtain ⟨rewired, found⟩ := layout.rewireAcross_run live operation
  have removable := checkRemovable_eq_ok_iff.mpr ⟨live, operation⟩
  simp only [removeOperation, EStateM.run_bind, EStateM.run_get, liftResult_run, removable,
    editRecords, rewired, EStateM.run_set, EStateM.run_pure, EStateM.run_modify]
  rw [bridgeEdges_eq found]
  rfl

theorem LaidOut.removeOperation (laid : c.LaidOut) (v : VertexId) :
    ((removeOperation v).after c).LaidOut := by
  obtain ⟨line, layout⟩ := id laid
  cases removable : c.checkRemovable v with
  | error cause =>
      have run : (Circuit.removeOperation v).run c = .error cause c := by
        simp only [Circuit.removeOperation, EStateM.run_bind, EStateM.run_get, liftResult_run,
          removable]
      rw [Edit.after, run]
      exact laid
  | ok r =>
      obtain ⟨live, operation⟩ := checkRemovable_eq_ok_iff.mp removable
      rw [Edit.after, layout.removeOperation_run live operation]
      exact ⟨_, layout.excise (List.nodup_singleton v) (by simpa using ⟨r, live, operation⟩)
        (layout.passes_operation live operation)⟩

end Circuit

end CircuitDag
