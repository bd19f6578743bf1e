import CircuitDag.Proofs.Circuit.CompositionDepth
import CircuitDag.Proofs.Circuit.Undoing
import CircuitDag.Proofs.Pass.Pipelines

/-!
# Depth under edits

The levels of the wires do not rise when operations are left out. So a removal leaves a circuit at
most as deep as before, an insertion one at least as deep, and passes, which remove operations and
renumber the others, never make a circuit deeper. An appended operation comes at most one level
above all others.
-/

set_option autoImplicit false

namespace CircuitDag

variable {levels levels' : WireId → Nat} {labels labels' : List Label} {label : Label}

/-- Operations that are left out raise no wire. -/
theorem levelsFrom_sublist (below : ∀ w, levels w ≤ levels' w) (included : labels.Sublist labels')
    (w : WireId) : levelsFrom levels labels w ≤ levelsFrom levels' labels' w := by
  induction included generalizing levels levels' with
  | slnil => exact below w
  | cons label _ ih => exact ih fun x => Nat.le_trans (below x) (le_raise levels' label x)
  | cons_cons label _ ih =>
      have raised : ∀ x, label.raise levels x ≤ label.raise levels' x + 0 :=
        raise_le_add below label
      exact ih raised

/-- An operation raises one of some wires that contain its own to the level above the highest of its
own, and lowers none. -/
theorem highest_raise {wires : List WireId} (somewhere : label.wires ≠ [])
    (inside : label.wires ⊆ wires) : highest (label.raise levels) wires =
      max (highest levels wires) (highest levels label.wires + 1) := by
  apply Nat.le_antisymm
  · apply highest_le
    intro w member
    unfold Label.raise
    split
    · exact Nat.le_max_right ..
    · exact Nat.le_trans (le_highest member) (Nat.le_max_left ..)
  · apply Nat.max_le.mpr
    constructor
    · apply highest_le
      intro w member
      exact Nat.le_trans (le_raise levels label w) (le_highest member)
    · obtain ⟨w, member⟩ := List.exists_mem_of_ne_nil _ somewhere
      have raised : label.raise levels w = highest levels label.wires + 1 := if_pos member
      exact raised ▸ le_highest (inside member)

namespace Circuit

variable {c c' : Circuit} {line line' : WireId → List VertexId} {block : List VertexId}
  {op : Operation} {v : VertexId} {qubits clbits : List WireId} {successors : List Port}

/-! ## Fewer operations -/

theorem Layout.depth_cut_le (layout : c.Layout line)
    (layout' : c'.Layout (Graph.cutLine line block))
    (same : ∀ x, x ∉ block → c'.label? x = c.label? x) : c'.depth ≤ c.depth := by
  have left : ((c.topologicalVertices.filter fun v => !block.contains v).filterMap c.label?).Sublist
      c.labels := by
    rw [labels_eq_filterMap]
    exact List.filter_sublist.filterMap c.label?
  rw [layout'.depth_eq, (layout.rearranged_cut layout' same).levelsBehind_eq]
  apply highest_le
  intro w _
  exact Nat.le_trans (levelsFrom_sublist (fun _ => Nat.le_refl 0) left w) (layout.level_le_depth w)

theorem Without.depth_le (without : c.Without line block c') (layout : c.Layout line) :
    c'.depth ≤ c.depth :=
  layout.depth_cut_le without.layout fun _ fresh => without.label?_congr fresh

theorem Grown.depth_le (grown : c.Grown line op qubits clbits successors c' line')
    (layout : c.Layout line) : c.depth ≤ c'.depth := by
  -- the circuit before is the one after without the vertex that is new in it
  have cut : c.Layout (Graph.cutLine line' [c.records.size]) :=
    (grown.cutLine_eq layout).symm ▸ layout
  apply grown.layout.depth_cut_le cut
  intro x other
  exact (label?_congr (grown.bare?_of_ne (by simpa using other))).symm

/-! ## One operation more -/

theorem Layout.rearranged_addOperation (layout : c.Layout line)
    (accepts : c.Accepts op qubits clbits)
    (grown : c.Grown line op qubits clbits (c.outputPorts (qubits ++ clbits)) c' line') :
    Rearranged Label.wires c'.labels (c.labels ++ [op.label (qubits ++ clbits)]) := by
  have somewhere : qubits ++ clbits ≠ [] := accepts.nonempty
  -- the listing may put the new operation anywhere behind those that share a wire with it, so the
  -- two lists are compared wire by wire
  apply rearranged_of_standingAt_eq
  · intro label member
    exact (grown.layout.label_wires label member).1
  · intro label member
    rcases List.mem_append.mp member with old | new
    · exact (layout.label_wires label old).1
    · obtain rfl := List.mem_singleton.mp new
      exact somewhere
  · intro w
    rw [grown.layout.standingAt_labels, layout.wireLabels_addOperation accepts grown,
      standingAt_append, layout.standingAt_labels]

/-- A circuit becomes deeper by an appended operation exactly if that is on one of its highest
wires. -/
theorem Layout.depth_addOperation (layout : c.Layout line) (accepts : c.Accepts op qubits clbits)
    (grown : c.Grown line op qubits clbits (c.outputPorts (qubits ++ clbits)) c' line') :
    c'.depth = max c.depth (highest (levelsBehind c.labels) (qubits ++ clbits) + 1) := by
  have sameWires : c'.numWires = c.numWires := by
    rw [numWires, grown.numQubits, grown.numClbits, numWires]
  have raised : highest ((op.label (qubits ++ clbits)).raise (levelsBehind c.labels))
      (List.range c.numWires) = max (highest (levelsBehind c.labels) (List.range c.numWires))
        (highest (levelsBehind c.labels) (qubits ++ clbits) + 1) := by
    apply highest_raise accepts.nonempty
    intro w member
    exact List.mem_range.mpr (accepts.lt_numWires member)
  rw [grown.layout.depth_eq, layout.depth_eq, sameWires,
    (layout.rearranged_addOperation accepts grown).levelsBehind_eq, levelsBehind_append]
  exact raised

/-! ## Edits -/

theorem Layout.excised_of_removeOperation (layout : c.Layout line)
    (run : (Circuit.removeOperation v).run c = .ok op c') : c.Excised line [v] c' := by
  rcases LaidOut.removeOperation_yields ⟨line, layout⟩ v with ⟨cause, failed⟩ | succeeded
  · cases run.symm.trans failed
  · obtain ⟨_, _, run', r, live, operation, -, rfl⟩ := succeeded
    cases run.symm.trans run'
    exact layout.excised (List.nodup_singleton v)
      (List.forall_mem_singleton.mpr ⟨r, live, operation⟩) (layout.passes_operation live operation)

theorem Layout.depth_le_of_removeOperation (layout : c.Layout line)
    (run : (Circuit.removeOperation v).run c = .ok op c') : c'.depth ≤ c.depth :=
  (layout.excised_of_removeOperation run).toWithout.depth_le layout

theorem Layout.depth_le_of_removeBlock (layout : c.Layout line) {vs : List VertexId}
    {map? : Option VertexMap} (run : (removeBlock vs map?).run c = .ok () c') :
    c'.depth ≤ c.depth := by
  obtain ⟨block, -, -, -, excised⟩ := layout.excised_of_removeBlock run
  exact excised.toWithout.depth_le layout

theorem Layout.depth_of_addOperation (layout : c.Layout line)
    (run : (Circuit.addOperation op qubits clbits).run c = .ok v c') :
    c'.depth = c.depth ∨ c'.depth = c.depth + 1 := by
  obtain ⟨accepts, -, -⟩ := addOperation_eq_ok_iff.mp run
  obtain ⟨line', grown⟩ := layout.addOperation accepts
  rw [Edit.after_eq_of_run run] at grown
  have top : highest (levelsBehind c.labels) (qubits ++ clbits) ≤ c.depth :=
    highest_le fun w _ => layout.level_le_depth w
  rw [layout.depth_addOperation accepts grown]
  omega

theorem Layout.le_depth_of_insertOperation (layout : c.Layout line) {before : List VertexId}
    (run : (Circuit.insertOperation op before qubits clbits).run c = .ok v c') :
    c.depth ≤ c'.depth := by
  obtain ⟨-, -, -, _, _, -, -, grown⟩ := layout.grown_of_insertOperation run
  exact grown.depth_le layout

theorem Reachable.depth_compacted (reachable : c.Reachable) : c.compacted.depth = c.depth := by
  obtain ⟨line, layout⟩ := reachable.laidOut
  have suited : c.compacted.records.Suited := (reachable.change .compact).suited
  exact (measures_agree layout layout.compact reachable.suited suited rfl
    layout.wireLabels_compacted).1

end Circuit

/-! ## Passes -/

open Circuit

variable {s : Compilation}

theorem Reduces.depth_le {accept : Element → Bool} {pairs : List (VertexId × VertexId)}
    {c d : Circuit} (reduces : Reduces accept c pairs d) (laid : c.LaidOut) :
    d.depth ≤ c.depth := by
  obtain ⟨line, layout⟩ := laid
  exact (layout.reduced reduces).depth_le layout

theorem Pipeline.depth_le (passes : List Pass) (reachable : s.circuit.Reachable) :
    ∃ s', (Pipeline.run passes).run s = .ok () s' ∧ s'.circuit.depth ≤ s.circuit.depth := by
  let keeps (c : Circuit) : Prop := c.Reachable ∧ c.depth ≤ s.circuit.depth
  have kept : ∃ s', (Pipeline.run passes).run s = .ok () s' ∧ keeps s'.circuit := by
    apply run_keeps keeps
    · exact fun c within => within.1.laidOut
    · intro accept c pairs d reduces within
      obtain ⟨reached, bounded⟩ := within
      exact ⟨reduces.reachable reached, Nat.le_trans (reduces.depth_le reached.laidOut) bounded⟩
    · intro c within
      obtain ⟨reached, bounded⟩ := within
      exact ⟨reached.change .compact, reached.depth_compacted.trans_le bounded⟩
    · exact ⟨reachable, Nat.le_refl _⟩
  obtain ⟨s', run, -, bounded⟩ := kept
  exact ⟨s', run, bounded⟩

/-- Removals never make a circuit deeper and insertions never less deep. An appended operation
leaves its depth or raises it by one. The passes that cancel and the pipelines of all levels succeed
and leave it at most as deep as it was. -/
theorem depth_under_edits (reachable : s.circuit.Reachable) :
    (∀ v op c', (removeOperation v).run s.circuit = .ok op c' → c'.depth ≤ s.circuit.depth) ∧
    (∀ vs map? c', (removeBlock vs map?).run s.circuit = .ok () c' →
      c'.depth ≤ s.circuit.depth) ∧
    (∀ op qubits clbits v c', (addOperation op qubits clbits).run s.circuit = .ok v c' →
      c'.depth = s.circuit.depth ∨ c'.depth = s.circuit.depth + 1) ∧
    (∀ op before qubits clbits v c',
      (insertOperation op before qubits clbits).run s.circuit = .ok v c' →
      s.circuit.depth ≤ c'.depth) ∧
    (∀ pass accept, Cancels pass accept → ∃ s', pass.run.run s = .ok () s' ∧
      s'.circuit.depth ≤ s.circuit.depth) ∧
    ∀ level, ∃ s', (Pipeline.run (Pipeline.ofLevel level)).run s = .ok () s' ∧
      s'.circuit.depth ≤ s.circuit.depth := by
  obtain ⟨line, layout⟩ := reachable.laidOut
  refine ⟨fun v op c' run => ?_, fun vs map? c' run => ?_, fun op qubits clbits v c' run => ?_,
    fun op before qubits clbits v c' run => ?_, fun pass accept cancels => ?_, fun level => ?_⟩
  · exact layout.depth_le_of_removeOperation run
  · exact layout.depth_le_of_removeBlock run
  · exact layout.depth_of_addOperation run
  · exact layout.le_depth_of_insertOperation run
  · obtain ⟨s', pairs, run, reduces⟩ := cancels.reduces reachable.laidOut
    exact ⟨s', run, reduces.depth_le reachable.laidOut⟩
  · exact Pipeline.depth_le (Pipeline.ofLevel level) reachable

theorem depth_under_edits_doubleCX : doubleCX.depth = 2 ∧
    (∀ v op c', (removeOperation v).run doubleCX = .ok op c' → c'.depth ≤ 2) ∧
    ∃ s', (Pipeline.run (Pipeline.ofLevel 1)).run { circuit := doubleCX } = .ok () s' ∧
      s'.circuit.depth ≤ 2 := by
  have deep : doubleCX.depth = 2 := by decide +kernel
  obtain ⟨removal, -, -, -, -, pipeline⟩ :=
    depth_under_edits (s := { circuit := doubleCX }) reachable_doubleCX
  refine ⟨deep, fun v op c' run => ?_, ?_⟩
  · exact (removal v op c' run).trans_eq deep
  · obtain ⟨s', run, bounded⟩ := pipeline 1
    exact ⟨s', run, bounded.trans_eq deep⟩

end CircuitDag
