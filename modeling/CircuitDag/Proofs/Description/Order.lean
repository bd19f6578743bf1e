import CircuitDag.Description.Basic
import CircuitDag.Proofs.Circuit.Labels
import CircuitDag.Proofs.Outcomes

/-!
# What a circuit keeps of the order of a description

Operations are appended in the order of the description. A wire of the circuit has the operations of
the description that stand on it, in this order. Nothing else is kept of the order: descriptions of
circuits with the same wires are rearrangements of each other.
-/

set_option autoImplicit false

namespace CircuitDag

/-! ## Labels of descriptions -/

/-- The label of a described operation, if there is such a gate. Classical bits become wires. -/
def OperationDescription.label? (numQubits : Nat) (op : OperationDescription) : Option Label :=
  (Element.ofName? op.gate).map fun element =>
    (op.operation element).label (op.qubits ++ op.clbits.map (numQubits + ·))

def CircuitDescription.labels? (d : CircuitDescription) : Option (List Label) :=
  d.operations.mapM (OperationDescription.label? d.numQubits)

variable {d d' : CircuitDescription} {c c' : Circuit} {op : OperationDescription}
  {ops : List OperationDescription} {labels : List Label} {r : Record}

theorem OperationDescription.classicalWires_eq_ok {numQubits numClbits index : Nat}
    {wires : List WireId} (found : op.classicalWires numQubits numClbits index = .ok wires) :
    wires = op.clbits.map (numQubits + ·) := by
  rw [classicalWires, mapM_eq_ok_iff] at found
  generalize op.clbits = clbits at found
  induction found with
  | nil => rfl
  | cons first _ ih =>
      split at first
      · cases first
        rw [ih, List.map_cons]
      · cases first

/-! ## Building -/

/-- A circuit has the operations with some labels: on every wire those that stand on it, in the
order of the labels. -/
structure Circuit.Holds (c : Circuit) (labels : List Label) : Prop where
  laidOut : c.LaidOut
  somewhere : ∀ label ∈ labels, label.wires ≠ []
  wireLabels : ∀ w, c.wireLabels w = standingAt Label.wires w labels

theorem Circuit.holds_blank (numQubits numClbits : Nat) (phase : Binary64) :
    (blank numQubits numClbits phase).Holds [] where
  laidOut := laidOut_blank numQubits numClbits phase
  somewhere := nofun
  wireLabels w := wireLabels_blank numQubits numClbits phase w

/-- An operation that has been added has a label, which comes after all others. -/
theorem Circuit.Holds.addDescribed {index : Nat} (holds : c.Holds labels)
    (added : d.addDescribed c op index = .ok c') : ∃ label, op.label? d.numQubits = some label ∧
      c'.Holds (labels ++ [label]) ∧ c'.numQubits = c.numQubits ∧ c'.numClbits = c.numClbits := by
  rw [CircuitDescription.addDescribed] at added
  cases named : Element.ofName? op.gate with
  | none =>
      rw [named] at added
      cases added
  | some element =>
      rw [named] at added
      obtain ⟨clbits, found, added⟩ := bind_eq_ok_iff.mp added
      obtain rfl := OperationDescription.classicalWires_eq_ok found
      obtain ⟨line, layout⟩ := holds.laidOut
      rw [addOperation_run] at added
      generalize wires : op.clbits.map (d.numQubits + ·) = clbits at added
      cases valid : c.validate (op.operation element) op.qubits clbits with
      | error cause =>
          rw [valid] at added
          cases added
      | ok _ =>
          have accepts := validate_eq_ok_iff.mp valid
          obtain ⟨line', grown⟩ := layout.addOperation accepts
          rw [Edit.after, addOperation_run, valid] at grown
          rw [valid] at added
          cases added
          refine ⟨(op.operation element).label (op.qubits ++ clbits), ?_,
            ⟨⟨line', grown.layout⟩, ?_, fun w => ?_⟩, grown.numQubits, grown.numClbits⟩
          · rw [OperationDescription.label?, named, wires]
            rfl
          · rw [List.forall_mem_append, List.forall_mem_singleton]
            exact ⟨holds.somewhere, accepts.nonempty⟩
          · rw [layout.wireLabels_addOperation accepts grown w, holds.wireLabels w,
              standingAt_append]

theorem Circuit.Holds.addAll {index : Nat} (holds : c.Holds labels)
    (added : (ops.zipIdx index).foldlM (fun c (op, index) => d.addDescribed c op index) c =
      .ok c') : ∃ more, ops.mapM (OperationDescription.label? d.numQubits) = some more ∧
      c'.Holds (labels ++ more) ∧ c'.numQubits = c.numQubits ∧ c'.numClbits = c.numClbits := by
  induction ops generalizing c labels index with
  | nil =>
      cases added
      exact ⟨[], rfl, by rwa [List.append_nil], rfl, rfl⟩
  | cons op ops ih =>
      rw [List.zipIdx_cons, List.foldlM_cons] at added
      obtain ⟨c₁, first, rest⟩ := bind_eq_ok_iff.mp added
      obtain ⟨label, labelled, holds, numQubits, numClbits⟩ := holds.addDescribed first
      obtain ⟨more, labelled', holds, numQubits', numClbits'⟩ := ih holds rest
      refine ⟨label :: more, ?_, by simpa using holds, numQubits'.trans numQubits,
        numClbits'.trans numClbits⟩
      rw [List.mapM_cons, labelled, labelled']
      rfl

theorem CircuitDescription.build_spec (built : d.build = .ok c) :
    ∃ labels, d.labels? = some labels ∧ c.Holds labels ∧
      c.numQubits = d.numQubits ∧ c.numClbits = d.numClbits := by
  obtain ⟨numQubits, numClbits, -⟩ :=
    Circuit.blank_spec d.numQubits d.numClbits d.globalPhase
  obtain ⟨labels, labelled, holds, numQubits', numClbits'⟩ :=
    (Circuit.holds_blank d.numQubits d.numClbits d.globalPhase).addAll built
  exact ⟨labels, labelled, holds, numQubits'.trans numQubits, numClbits'.trans numClbits⟩

/-! ## Listing -/

theorem ParamDescription.toParam_ofParam (p : Param) : (ofParam p).toParam = p := by
  cases p <;> rfl

theorem OperationDescription.params_ofRecord (numQubits : Nat) (r : Record) :
    ((ofRecord numQubits r).operation r.element).params = r.params := by
  simp only [ofRecord, operation, List.isEmpty_iff, List.map_eq_nil_iff, List.map_map]
  split
  · next none => exact none.symm
  · exact (List.map_congr_left fun p _ => ParamDescription.toParam_ofParam p).trans (List.map_id _)

theorem OperationDescription.clbits_ofRecord (wired : c.Wired r) :
    (ofRecord c.numQubits r).clbits.map (c.numQubits + ·) = r.classicalWires := by
  rw [ofRecord, List.map_map]
  exact (List.map_congr_left fun w member =>
    Nat.add_sub_of_le (wired.classical w member).1).trans (List.map_id _)

theorem OperationDescription.label?_ofRecord (wired : c.Wired r) :
    (ofRecord c.numQubits r).label? c.numQubits = some r.label := by
  have wires : (ofRecord c.numQubits r).qubits ++
      (ofRecord c.numQubits r).clbits.map (c.numQubits + ·) = r.wires := by
    rw [clbits_ofRecord wired]
    exact List.take_append_drop ..
  have named : Element.ofName? (ofRecord c.numQubits r).gate = some r.element :=
    Element.ofName?_name r.element
  rw [label?, named, Option.map_some, wires, Operation.label, params_ofRecord]
  rfl

theorem Circuit.Layout.labels?_ofCircuit {line : WireId → List VertexId} (layout : c.Layout line) :
    (CircuitDescription.ofCircuit c).labels? = some c.labels := by
  have listed : ∀ entry ∈ c.topologicalOperations,
      (OperationDescription.ofRecord c.numQubits entry.2).label? c.numQubits =
        some entry.2.label := fun (v, r) member =>
    OperationDescription.label?_ofRecord
      (layout.wired v r (layout.mem_topologicalOperations.mp member).1)
  rw [CircuitDescription.labels?, labels]
  simp only [CircuitDescription.ofCircuit]
  generalize c.topologicalOperations = entries at listed
  induction entries with
  | nil => rfl
  | cons entry entries ih =>
      rw [List.forall_mem_cons] at listed
      rw [List.map_cons, List.mapM_cons, listed.1, ih listed.2]
      rfl

/-! ## Rearrangements -/

/-- Two descriptions of circuits with the same numbers of wires yield the same labels on all wires
exactly if one comes from the other by swaps of neighbouring operations that share no wire. What is
listed from a circuit is such a rearrangement of what it has been built from. -/
theorem wires_agree_iff_rearranged (numQubits : d.numQubits = d'.numQubits)
    (numClbits : d.numClbits = d'.numClbits) (built : d.build = .ok c)
    (built' : d'.build = .ok c') : ∃ labels labels' listed, d.labels? = some labels ∧
      d'.labels? = some labels' ∧ (CircuitDescription.ofCircuit c).labels? = some listed ∧
      ((∀ w < c.numWires, c.wireLabels w = c'.wireLabels w) ↔
        Rearranged Label.wires labels labels') ∧
      Rearranged Label.wires labels listed := by
  obtain ⟨labels, labelled, holds, wires, wires₁⟩ := CircuitDescription.build_spec built
  obtain ⟨labels', labelled', holds', wires', wires₁'⟩ := CircuitDescription.build_spec built'
  obtain ⟨line, layout⟩ := holds.laidOut
  obtain ⟨line', layout'⟩ := holds'.laidOut
  have sizes : c'.numWires = c.numWires := by
    rw [Circuit.numWires, Circuit.numWires, wires, wires₁, wires', wires₁', numQubits, numClbits]
  refine ⟨labels, labels', c.labels, labelled, labelled', layout.labels?_ofCircuit, ?_, ?_⟩
  · rw [← standingAt_eq_iff_rearranged holds.somewhere holds'.somewhere]
    refine forall_congr' fun w => ?_
    rw [← holds.wireLabels w, ← holds'.wireLabels w]
    refine ⟨fun agree => ?_, fun agree _ => agree⟩
    rcases Nat.lt_or_ge w c.numWires with inside | beyond
    · exact agree inside
    · rw [Circuit.wireLabels, Circuit.wireLabels, layout.wireVertices_eq, layout'.wireVertices_eq,
        layout.line_eq_nil beyond, layout'.line_eq_nil (sizes ▸ beyond)]
      rfl
  · refine rearranged_of_standingAt_eq holds.somewhere (fun label member => ?_) fun w => ?_
    · obtain ⟨⟨v, r⟩, entry, rfl⟩ := List.mem_map.mp member
      exact (layout.wired v r (layout.mem_topologicalOperations.mp entry).1).nonempty
    · rw [layout.standingAt_labels w, holds.wireLabels w]

/-- It does not matter in which order gates on different qubits are described. -/
theorem wires_agree_after_swap :
    let left : CircuitDescription :=
      { numQubits := 2
        operations := [⟨"h", [0], [], []⟩, ⟨"x", [1], [], []⟩, ⟨"cx", [0, 1], [], []⟩] }
    let right : CircuitDescription :=
      { numQubits := 2
        operations := [⟨"x", [1], [], []⟩, ⟨"h", [0], [], []⟩, ⟨"cx", [0, 1], [], []⟩] }
    ∃ c c', left.build = .ok c ∧ right.build = .ok c' ∧
      ∀ w < c.numWires, c.wireLabels w = c'.wireLabels w := by
  intro left right
  obtain ⟨c, built⟩ := exists_of_isOk (show left.build.isOk = true by decide +kernel)
  obtain ⟨c', built'⟩ := exists_of_isOk (show right.build.isOk = true by decide +kernel)
  have numQubits : left.numQubits = right.numQubits := rfl
  have numClbits : left.numClbits = right.numClbits := rfl
  obtain ⟨labels, labels', -, labelled, labelled', -, agree, -⟩ :=
    wires_agree_iff_rearranged numQubits numClbits built built'
  have first : left.labels? = some [⟨.h, [], [0]⟩, ⟨.x, [], [1]⟩, ⟨.cx, [], [0, 1]⟩] := by
    decide
  have second : right.labels? = some [⟨.x, [], [1]⟩, ⟨.h, [], [0]⟩, ⟨.cx, [], [0, 1]⟩] := by
    decide
  cases labelled.symm.trans first
  cases labelled'.symm.trans second
  exact ⟨c, c', built, built', agree.mpr (.single (.intro [] _ _ _ (by simp)))⟩

end CircuitDag
