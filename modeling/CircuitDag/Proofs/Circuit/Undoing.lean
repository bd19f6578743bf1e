import CircuitDag.Proofs.Circuit.Measures
import CircuitDag.Proofs.Circuit.Placement

/-!
# Removing what was inserted

Insertion splices an operation into its wires one edge at a time, and removal clears all edges at a
vertex and joins its neighbours again. Both are read off the lines, so one takes the other back. The
record that is left behind stays removed until a compaction drops it.
-/

set_option autoImplicit false

namespace CircuitDag

theorem Inserted.filter_eq {v b : VertexId} {l l' : List VertexId} (inserted : Inserted v b l l')
    (fresh : v ∉ l) : (l'.filter fun x => !([v] : List VertexId).contains x) = l := by
  have kept : l.filter (fun x => !([v] : List VertexId).contains x) = l := by
    refine List.filter_eq_self.mpr fun x member => ?_
    have other : x ≠ v := fun same => fresh (same ▸ member)
    simp [other]
  obtain ⟨front, a, back, rfl, rfl⟩ := inserted
  refine Eq.trans ?_ kept
  simp [List.filter_cons]

namespace Circuit

variable {c c' c'' : Circuit} {line line' : WireId → List VertexId} {v : VertexId} {w : WireId}
  {op : Operation} {qubits clbits : List WireId} {before : List VertexId}
  {successors : List Port}

theorem Grown.cutLine_eq (layout : c.Layout line)
    (grown : c.Grown line op qubits clbits successors c' line') :
    Graph.cutLine line' [c.records.size] = line := by
  funext w
  by_cases member : w ∈ qubits ++ clbits
  · obtain ⟨p, -, inserted⟩ := grown.inserted w member
    exact inserted.filter_eq fun inside => layout.ne_size inside rfl
  · rw [Graph.cutLine, grown.others w member]
    refine List.filter_eq_self.mpr fun x inside => ?_
    simp [layout.ne_size inside]

/-- A circuit that agrees with another one but for one record more, of a vertex that has been
removed, and for the order in which edges are stored. -/
structure Restored (c : Circuit) (v : VertexId) (c' : Circuit) : Prop where
  wireVertices : ∀ w, c'.wireVertices w = c.wireVertices w
  records : ∀ u, u ≠ v → c'.records.get? u = c.records.get? u
  removed : c'.records.isRemoved v = true
  segments : c'.graph.segments.Perm c.graph.segments
  occurrences : ∀ slot p, c'.params.holds slot p = c.params.holds slot p
  numParameters : c'.numParameters = c.numParameters
  numVertices : c'.numVertices = c.numVertices
  numEdges : c'.numEdges = c.numEdges
  depth : c'.depth = c.depth

/-- The occurrences that were registered for the new vertex are purged, and no others are at it. -/
theorem Layout.holds_excised (layout : c.Layout line)
    (excised : c'.Excised line' [c.records.size] c'')
    (placed : c' = c.place op qubits clbits successors) (slot : ParamSlot) (p : Param) :
    c''.params.holds slot p = c.params.holds slot p := by
  have registered : c'.params = c.params.registerAll c.records.size op.params := by
    rw [placed]
    exact (place_frame c op qubits clbits successors).2
  rw [Bool.eq_iff_iff, excised.params, registered, List.foldl_cons, List.foldl_nil,
    (layout.coherent.registerAll _ _).holds_purge, layout.coherent.holds_registerAll]
  constructor
  · intro given
    obtain ⟨old | new, other⟩ := given
    · exact old
    · exact absurd new.1 other
  · intro old
    obtain ⟨r, live⟩ := Records.isLive_iff.mp ((layout.indexed slot p).mp old).2.1
    exact ⟨.inl old, Nat.ne_of_lt live.lt_size⟩

section Restored

variable (layout : c.Layout line) (grown : c.Grown line op qubits clbits successors c' line')
  (excised : c'.Excised line' [c.records.size] c'')

include grown excised

theorem Grown.isRemoved_excised : c''.records.isRemoved c.records.size = true := by
  have gone := excised.gone c.records.size (List.mem_singleton_self _)
  rw [grown.bare, Records.bare?, Records.bare?, Records.get?_push_size] at gone
  obtain ⟨s, found, agree⟩ := Option.map_eq_some_iff.mp gone
  have removed : s.bare.removed = true := by rw [agree]; rfl
  exact Records.isRemoved_iff.mpr ⟨s, found, removed⟩

include layout

/-- The records of other vertices are back with their ports, which follow from the lines. -/
theorem Grown.get?_excised {u : VertexId} (other : u ≠ c.records.size) :
    c''.records.get? u = c.records.get? u := by
  have bare : ∀ u, u ≠ c.records.size → c''.records.bare? u = c.records.bare? u := fun u other =>
    (excised.bare u (by simpa using other)).trans (grown.bare?_of_ne other)
  exact layout.get?_eq (grown.cutLine_eq layout ▸ excised.layout) (bare u other)
    fun w x member => bare x (layout.ne_size member)

theorem Grown.wireLabels_excised (w : WireId) : c''.wireLabels w = c.wireLabels w := by
  have layout' : c''.Layout line := grown.cutLine_eq layout ▸ excised.layout
  rw [wireLabels, wireLabels, layout'.wireVertices_eq, layout.wireVertices_eq]
  refine List.filterMap_congr fun x member => ?_
  rw [label?, label?, grown.get?_excised layout excised (layout.ne_size member)]

/-- What is left without the new vertex agrees with what was there before it. -/
theorem Grown.restored (placed : c' = c.place op qubits clbits successors)
    (suited : c.records.Suited) (suited' : c''.records.Suited) :
    c.Restored c.records.size c'' := by
  have layout' : c''.Layout line := grown.cutLine_eq layout ▸ excised.layout
  have numRemoved : c'.numRemoved = c.numRemoved := by
    rw [placed, (place_frame c op qubits clbits successors).1]
  have segments : c''.graph.segments.Perm c.graph.segments := by
    refine (List.perm_ext_iff_of_nodup layout'.traced.nodup layout.traced.nodup).mpr ?_
    intro given
    obtain ⟨s, t, w⟩ := given
    rw [layout'.traced.mem_iff, layout.traced.mem_iff]
  have numWires : c''.numWires = c.numWires := by
    rw [Circuit.numWires, excised.numQubits, excised.numClbits, grown.numQubits, grown.numClbits,
      Circuit.numWires]
  obtain ⟨depth, -, -, numParameters⟩ := measures_agree layout layout' suited suited' numWires
    (grown.wireLabels_excised layout excised)
  refine ⟨fun w => ?_, fun u => grown.get?_excised layout excised, grown.isRemoved_excised excised,
    segments, layout.holds_excised excised placed, numParameters, ?_, ?_, depth⟩
  · rw [layout'.wireVertices_eq, layout.wireVertices_eq]
  · rw [numVertices, numVertices, excised.size, excised.numRemoved, numRemoved,
      Records.size_of_bare? grown.bare, Records.size_push]
    exact Nat.add_sub_add_right ..
  · simpa [numEdges, Graph.numEdges, Graph.segments] using segments.length_eq

end Restored

/-! ## Removed vertices -/

theorem lasting_isRemoved (v : VertexId) : Lasting fun rs => rs.isRemoved v = true where
  congr same removed := by rw [Records.isRemoved_congr same]; exact removed
  push _ _ removed := by
    obtain ⟨r, found, gone⟩ := Records.isRemoved_iff.mp removed
    have bound := Records.lt_size_of_get? found
    exact Records.isRemoved_iff.mpr ⟨r, (Records.get?_push_of_lt _ bound).trans found, gone⟩
  tombstone u removed := by
    obtain ⟨r, found, gone⟩ := Records.isRemoved_iff.mp removed
    rw [Records.isRemoved_iff]
    by_cases same : u = v
    · exact ⟨r.tombstone, by rw [Records.get?_tombstone, if_pos same, found]; rfl, rfl⟩
    · exact ⟨r, by rw [Records.get?_tombstone, if_neg same, found], gone⟩
  setParam u position p removed := by
    obtain ⟨r, found, gone⟩ := Records.isRemoved_iff.mp removed
    obtain ⟨ps, found'⟩ := Records.exists_setParam u position p found
    exact Records.isRemoved_iff.mpr ⟨_, found', gone⟩

/-- A removed vertex stays removed until a compaction, which gives it no number. -/
theorem Reachable.stays_removed (reachable : c.Reachable) (removed : c.records.isRemoved v = true)
    (changes : List Change) (others : ∀ change ∈ changes, change ≠ .compact) :
    (changes.foldl Change.after c).records.isRemoved v = true := by
  induction changes generalizing c with
  | nil => exact removed
  | cons change changes ih =>
      rw [List.forall_mem_cons] at others
      exact ih (reachable.change change)
        ((lasting_isRemoved v).change reachable.laidOut others.1 removed) others.2

theorem dropped_by_compact (removed : c.records.isRemoved v = true) :
    ∃ m c', compact.run c = .ok m c' ∧ m.get? v = none := by
  refine ⟨_, _, compact_run c, Option.eq_none_iff_forall_ne_some.mpr fun k number => ?_⟩
  obtain ⟨r, live, -⟩ := (Records.moves_renumber c.records).old v k number
  rw [live.isRemoved] at removed
  cases removed

/-- Removing an operation that was just added or inserted gives it back as it was given and takes
the insertion back. The vertex stays removed under all changes but compaction, which drops it. -/
theorem removal_undoes_insertion (reachable : c.Reachable)
    (inserted : (addOperation op qubits clbits).run c = .ok v c' ∨
      ∃ before, (insertOperation op before qubits clbits).run c = .ok v c') :
    ∃ c'', (removeOperation v).run c' = .ok op c'' ∧ c.Restored v c'' ∧
      ∀ changes : List Change, (∀ change ∈ changes, change ≠ .compact) →
        let d := changes.foldl Change.after c''
        d.records.isRemoved v = true ∧ ∃ m d', compact.run d = .ok m d' ∧ m.get? v = none := by
  obtain ⟨line, layout⟩ := reachable.laidOut
  -- What was appended has also been inserted, before the outputs.
  obtain ⟨before, run⟩ : ∃ before, (insertOperation op before qubits clbits).run c = .ok v c' := by
    rcases inserted with added | inserted
    · obtain ⟨outs, -, run⟩ := layout.insertOperation_outputs added
      exact ⟨outs, run⟩
    · exact inserted
  obtain ⟨rfl, accepts, -, points, line', -, placed, grown⟩ :=
    layout.grown_of_insertOperation run
  obtain ⟨r, live, agree⟩ :=
    Records.exists_live_of_bare? grown.bare (Records.live_push_size c.records rfl)
  have operation : r.operation = op := Record.operation_of_bare agree
  have notAnchor : r.isAnchor = false := by
    rw [Record.isAnchor, Record.element, operation]
    exact accepts.operation
  have removal := grown.layout.removeOperation_run live notAnchor
  have excised := grown.layout.excised (List.nodup_singleton _)
    (List.forall_mem_singleton.mpr ⟨r, live, notAnchor⟩)
    (grown.layout.passes_operation live notAnchor)
  have reachable' : c'.Reachable := by
    have step := reachable.change (.insertOperation op before qubits clbits)
    rwa [Change.after, Edit.after_eq_of_run run] at step
  have reachable'' : (c'.excise [c.records.size] r.passages).Reachable := by
    have step := reachable'.change (.removeOperation c.records.size)
    rwa [Change.after, Edit.after_eq_of_run removal] at step
  have restored := grown.restored layout excised placed reachable.suited reachable''.suited
  refine ⟨_, operation ▸ removal, restored, fun changes others => ?_⟩
  have stays := reachable''.stays_removed restored.removed changes others
  exact ⟨stays, dropped_by_compact stays⟩

/-- An operation given with an empty list of parameters comes back with that list. -/
theorem removal_undoes_hadamard :
    let op : Operation := { element := .h, params? := some [] }
    let c := blank 1 0 Binary64.zero
    ∃ c' c'', (addOperation op [0] []).run c = .ok 2 c' ∧
      (removeOperation 2).run c' = .ok op c'' ∧ c.Restored 2 c'' := by
  intro op c
  obtain ⟨c', added⟩ : ∃ c', (addOperation op [0] []).run c = .ok 2 c' := ⟨_, rfl⟩
  obtain ⟨c'', removal, restored, -⟩ :=
    removal_undoes_insertion (.blank 1 0 Binary64.zero) (.inl added)
  exact ⟨c', c'', added, removal, restored⟩

end Circuit

end CircuitDag
