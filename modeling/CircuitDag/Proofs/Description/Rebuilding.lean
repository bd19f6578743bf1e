import CircuitDag.Proofs.Circuit.Composition
import CircuitDag.Proofs.Circuit.Measures
import CircuitDag.Proofs.Description.Acceptance

/-!
# Listing a circuit and building it again

Each operation of a circuit is accepted when it is added again, in any order that agrees with the
wires. What is built has the same labels on each wire, and so the same depth and the same counts.
-/

set_option autoImplicit false

namespace CircuitDag

variable {d : CircuitDescription} {b c : Circuit} {line : WireId → List VertexId} {r : Record}

/-! ## What building does -/

/-- What operations keep when they are appended, a circuit that is built has from the start. -/
theorem CircuitDescription.build_keeps (P : Circuit → Prop)
    (blank : P (Circuit.blank d.numQubits d.numClbits d.globalPhase))
    (keeps : ∀ b op qubits clbits, P b → P ((Circuit.addOperation op qubits clbits).after b))
    (built : d.build = .ok c) : P c := by
  have run : ∀ (ops : List (OperationDescription × Nat)) (b : Circuit), P b →
      ops.foldlM (fun c entry => d.addDescribed c entry.1 entry.2) b = .ok c → P c := by
    intro ops
    induction ops with
    | nil =>
        intro b holds finished
        cases finished
        exact holds
    | cons op ops ih =>
        intro b holds finished
        rw [List.foldlM_cons] at finished
        obtain ⟨op, index⟩ := op
        obtain ⟨b', added, rest⟩ := bind_eq_ok_iff.mp finished
        refine ih b' ?_ rest
        rw [addDescribed] at added
        cases named : Element.ofName? op.gate with
        | none =>
            rw [named] at added
            cases added
        | some element =>
            rw [named] at added
            obtain ⟨clbits, -, added⟩ := bind_eq_ok_iff.mp added
            have kept := keeps b (op.operation element) op.qubits clbits holds
            rw [Edit.after] at kept
            split at added
            · next v b'' result =>
                cases added
                rwa [result] at kept
            · cases added
  exact run _ _ blank built

theorem CircuitDescription.reachable_of_build (built : d.build = .ok c) : c.Reachable :=
  build_keeps Circuit.Reachable (.blank ..)
    (fun _ op qubits clbits before => before.change (.addOperation op qubits clbits)) built

theorem Circuit.globalPhase_blank (numQubits numClbits : Nat) (phase : Binary64) :
    (blank numQubits numClbits phase).globalPhase = phase := by
  rw [blank_eq]
  refine openWires_keeps (·.globalPhase = phase) (fun c side w same => ?_)
    (fun c source target w same => same) rfl _
  rw [← same]
  cases side <;> simp only [pushEnd, pushInput, pushOutput, pushAnchor] <;> split <;> rfl

/-! ## Listed operations are accepted -/

theorem OperationDescription.classicalWires_of_lt {op : OperationDescription} {numClbits : Nat}
    (inside : ∀ bit ∈ op.clbits, bit < numClbits) (numQubits index : Nat) :
    op.classicalWires numQubits numClbits index = .ok (op.clbits.map (numQubits + ·)) := by
  rw [classicalWires, mapM_eq_ok_iff, List.forall₂_map_right_iff, List.forall₂_same]
  intro bit member
  rw [if_pos (inside bit member)]

/-- An operation of a circuit can be added to every circuit with the same wires. -/
theorem Circuit.Layout.addDescribed_ofRecord (layout : c.Layout line) (suited : c.records.Suited)
    {v : VertexId} (live : c.records.Live v r) (operation : r.isAnchor = false)
    (numQubits : b.numQubits = c.numQubits) (numClbits : b.numClbits = c.numClbits)
    (index : Nat) : ∃ b', (CircuitDescription.ofCircuit c).addDescribed b
        (OperationDescription.ofRecord c.numQubits r) index = .ok b' ∧
      b'.numQubits = c.numQubits ∧ b'.numClbits = c.numClbits := by
  have wired := layout.wired v r live
  have accepts := (layout.accepts suited live operation).of_eq numQubits numClbits
  have inside : ∀ bit ∈ (OperationDescription.ofRecord c.numQubits r).clbits,
      bit < c.numClbits := by
    intro bit member
    obtain ⟨w, classical, rfl⟩ := List.mem_map.mp member
    obtain ⟨above, below⟩ := wired.classical w classical
    exact Nat.sub_lt_left_of_lt_add above below
  have clbits := OperationDescription.classicalWires_of_lt inside c.numQubits index
  rw [OperationDescription.clbits_ofRecord wired] at clbits
  have named : Element.ofName? (OperationDescription.ofRecord c.numQubits r).gate =
      some r.element :=
    Element.ofName?_name r.element
  have valid : b.validate ((OperationDescription.ofRecord c.numQubits r).operation r.element)
      r.quantumWires r.classicalWires = .ok () := by
    refine validate_eq_ok_iff.mpr { accepts with numParams := ?_ }
    rw [OperationDescription.params_ofRecord]
    exact accepts.numParams
  obtain ⟨sameQubits, sameClbits⟩ := place_sizes b
    ((OperationDescription.ofRecord c.numQubits r).operation r.element) r.quantumWires
    r.classicalWires (b.outputPorts (r.quantumWires ++ r.classicalWires))
  refine ⟨_, ?_, sameQubits.trans numQubits, sameClbits.trans numClbits⟩
  rw [CircuitDescription.addDescribed, named]
  refine bind_eq_ok_iff.mpr ⟨_, clbits, ?_⟩
  have run := addOperation_run ((OperationDescription.ofRecord c.numQubits r).operation r.element)
    r.quantumWires r.classicalWires b
  rw [valid] at run
  have quantum : (OperationDescription.ofRecord c.numQubits r).qubits = r.quantumWires := rfl
  rw [quantum, run]

theorem Circuit.Layout.exists_rebuilt (layout : c.Layout line) (suited : c.records.Suited) :
    ∃ c', (CircuitDescription.ofCircuit c).build = .ok c' := by
  have run : ∀ (entries : List (VertexId × Record)) (index : Nat) (b : Circuit),
      (∀ entry ∈ entries, c.records.Live entry.1 entry.2 ∧ entry.2.isAnchor = false) →
      b.numQubits = c.numQubits → b.numClbits = c.numClbits →
      ∃ c', ((entries.map fun entry => OperationDescription.ofRecord c.numQubits entry.2).zipIdx
        index).foldlM (fun b listed =>
          (CircuitDescription.ofCircuit c).addDescribed b listed.1 listed.2) b = .ok c' := by
    intro entries
    induction entries with
    | nil => exact fun _ b _ _ _ => ⟨b, rfl⟩
    | cons entry entries ih =>
        intro index b listed numQubits numClbits
        rw [List.forall_mem_cons] at listed
        obtain ⟨⟨live, operation⟩, others⟩ := listed
        obtain ⟨b', added, numQubits', numClbits'⟩ :=
          layout.addDescribed_ofRecord suited live operation numQubits numClbits index
        obtain ⟨c', rest⟩ := ih (index + 1) b' others numQubits' numClbits'
        refine ⟨c', ?_⟩
        rw [List.map_cons, List.zipIdx_cons, List.foldlM_cons]
        exact bind_eq_ok_iff.mpr ⟨b', added, rest⟩
  obtain ⟨numQubits, numClbits, -⟩ := blank_spec c.numQubits c.numClbits c.globalPhase
  exact run c.topologicalOperations 0 _ (fun entry listed =>
    layout.mem_topologicalOperations.mp listed) numQubits numClbits

theorem numPlaces_ofCircuit (c : Circuit) :
    numPlaces (CircuitDescription.ofCircuit c).operations = Circuit.edgesFor c.labels := by
  rw [numPlaces, CircuitDescription.ofCircuit, Circuit.edgesFor, Circuit.labels, List.map_map,
    List.map_map]
  refine congrArg List.sum (List.map_congr_left fun entry _ => ?_)
  have split := congrArg List.length (List.take_append_drop entry.2.numQuantum entry.2.wires)
  rw [List.length_append] at split
  simpa [OperationDescription.ofRecord, Record.quantumWires, Record.classicalWires, Record.label,
    Operation.label] using split

/-- What is built has a vertex and an edge for each that the circuit needs, and not more. -/
theorem Circuit.Layout.hasRoom_ofCircuit (layout : c.Layout line) (fits : c.fits = true) :
    (CircuitDescription.ofCircuit c).HasRoom (CircuitDescription.ofCircuit c).operations := by
  obtain ⟨vertices, edges⟩ := Circuit.fits_iff.mp fits
  have sizes := layout.numRemoved_add
  have operations : (CircuitDescription.ofCircuit c).operations.length = c.numOperations :=
    (List.length_map ..).trans layout.length_topologicalOperations
  constructor
  · rw [operations]
    change 2 * c.numWires + c.numOperations ≤ Graph.maxSize
    rw [layout.numVertices] at vertices
    omega
  · rw [numPlaces_ofCircuit]
    change c.numWires + Circuit.edgesFor c.labels ≤ Graph.maxSize
    rwa [← layout.numEdges_eq_labels]

/-! ## Nothing is lost -/

/-- The listing of a circuit can be built, and what is built has the same numbers of wires, the same
phase and the same labels along each wire, and hence the same depth and counts. There is room for it
if there is for the circuit. -/
theorem rebuilt_keeps_wires (reached : c.Reachable) :
    (∀ v r, (v, r) ∈ c.topologicalOperations → ∀ w ∈ r.classicalWires, c.numQubits ≤ w) ∧
    ∃ c', (CircuitDescription.ofCircuit c).build = .ok c' ∧
      (c.fits = true → (CircuitDescription.ofCircuit c).toCircuit = .ok c') ∧
      c'.numQubits = c.numQubits ∧ c'.numClbits = c.numClbits ∧
      c'.globalPhase = c.globalPhase ∧ (∀ w, c'.wireLabels w = c.wireLabels w) ∧
      c'.depth = c.depth ∧ c'.elementCounts = c.elementCounts ∧
      c'.numTensorFactors = c.numTensorFactors ∧ c'.numParameters = c.numParameters := by
  obtain ⟨line, layout⟩ := reached.laidOut
  refine ⟨fun v r listed w classical => ?_, ?_⟩
  · have live := (layout.mem_topologicalOperations.mp listed).1
    exact ((layout.wired v r live).classical w classical).1
  · obtain ⟨c', built⟩ := layout.exists_rebuilt reached.suited
    have reached' := CircuitDescription.reachable_of_build built
    have phase : c'.globalPhase = c.globalPhase :=
      CircuitDescription.build_keeps (·.globalPhase = c.globalPhase)
        (Circuit.globalPhase_blank ..)
        (fun b op qubits clbits same => (b.globalPhase_addOperation op qubits clbits).trans same)
        built
    obtain ⟨labels, labelled, holds, numQubits, numClbits⟩ := CircuitDescription.build_spec built
    cases labelled.symm.trans layout.labels?_ofCircuit
    obtain ⟨line', layout'⟩ := holds.laidOut
    have agree : ∀ w, c'.wireLabels w = c.wireLabels w := fun w =>
      (holds.wireLabels w).trans (layout.standingAt_labels w)
    have numWires : c'.numWires = c.numWires := by
      rw [Circuit.numWires, numQubits, numClbits]
      rfl
    have made : c.fits = true → (CircuitDescription.ofCircuit c).toCircuit = .ok c' := fun fits =>
      CircuitDescription.toCircuit_eq_ok_iff.mpr ⟨built, layout.hasRoom_ofCircuit fits⟩
    exact ⟨c', built, made, numQubits, numClbits, phase, agree,
      Circuit.measures_agree layout layout' reached.suited reached'.suited numWires agree⟩

def remeasured : Circuit :=
  (Circuit.Change.removeOperation 4).after <|
    (Circuit.Change.addOperation { element := .measure } [0] [1]).after <|
      (Circuit.Change.addOperation { element := .rx, params? := some [.symbol "a"] }
          [0] []).after <|
        Circuit.blank 1 1 Binary64.zero

theorem remeasured_is_rebuilt : ∃ c', (CircuitDescription.ofCircuit remeasured).build = .ok c' ∧
    (CircuitDescription.ofCircuit remeasured).toCircuit = .ok c' ∧
    c'.wireLabels 1 = [⟨.measure, [], [0, 1]⟩] ∧ c'.depth = 1 ∧ c'.numParameters = 0 := by
  have reached : remeasured.Reachable := ((Circuit.Reachable.blank 1 1 Binary64.zero).change _
    |>.change _).change _
  obtain ⟨-, c', built, made, -, -, -, labels, depth, -, -, parameters⟩ :=
    rebuilt_keeps_wires reached
  refine ⟨c', built, made (by decide +kernel), (labels 1).trans ?_, depth.trans ?_, parameters.trans ?_⟩
  · decide +kernel
  · decide +kernel
  · decide +kernel

end CircuitDag
