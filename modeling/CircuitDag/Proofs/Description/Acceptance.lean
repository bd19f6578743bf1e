import CircuitDag.Proofs.Circuit.Capacity
import CircuitDag.Proofs.Circuit.Reachable
import CircuitDag.Proofs.Description.Order

/-!
# Which descriptions are accepted

Whether an operation can be put on wires depends on the numbers of qubits and classical bits alone,
and operations change neither. So a description is accepted exactly if each of its operations is
well formed on its own, and it is refused because of the first one that is not.
-/

set_option autoImplicit false

namespace CircuitDag

namespace OperationDescription

variable {op : OperationDescription} {numQubits numClbits index : Nat} {element : Element}

/-- What an operation with an element has to satisfy on some numbers of wires. -/
structure Fits (op : OperationDescription) (element : Element) (numQubits numClbits : Nat) :
    Prop where
  operation : element.isAnchor = false
  somewhere : op.qubits ≠ [] ∨ op.clbits ≠ []
  qubitArity : ∀ n, element.numQubits = some n → n = op.qubits.length
  clbitArity : ∀ n, element.numClbits = some n → n = op.clbits.length
  paramArity : ∀ n, element.numParams = some n → n = op.params.length
  distinctQubits : op.qubits.Nodup
  distinctClbits : op.clbits.Nodup
  qubitsInside : ∀ q ∈ op.qubits, q < numQubits
  clbitsInside : ∀ bit ∈ op.clbits, bit < numClbits

def WellFormed (op : OperationDescription) (numQubits numClbits : Nat) : Prop :=
  ∃ element, Element.ofName? op.gate = some element ∧ op.Fits element numQubits numClbits

/-- Why the operation at an index is refused: its gate is unknown, or else one of its classical bits
is out of range, or else it is not valid. The circuit without operations tells how. -/
inductive Refused (op : OperationDescription) (numQubits numClbits index : Nat) :
    DescriptionError → Prop where
  | gate (unknown : Element.ofName? op.gate = none) :
      Refused op numQubits numClbits index (.unknownGate op.gate index)
  | clbit {element : Element} {bit : Nat} (named : Element.ofName? op.gate = some element)
      (first : op.clbits.find? (fun bit => numClbits ≤ bit) = some bit) :
      Refused op numQubits numClbits index (.clbitOutOfRange bit numClbits index)
  | invalid {element : Element} {cause : ValidationError}
      (named : Element.ofName? op.gate = some element)
      (inside : ∀ bit ∈ op.clbits, bit < numClbits)
      (invalid : (Circuit.blank numQubits numClbits).validate (op.operation element) op.qubits
        (op.clbits.map (numQubits + ·)) = .error cause) :
      Refused op numQubits numClbits index (.refused index (.validation cause))

/-! ## Classical bits -/

theorem find?_outside_eq_none_iff :
    op.clbits.find? (fun bit => numClbits ≤ bit) = none ↔ ∀ bit ∈ op.clbits, bit < numClbits := by
  simp [List.find?_eq_none]

theorem classicalWires_eq (op : OperationDescription) (numQubits numClbits index : Nat) :
    op.classicalWires numQubits numClbits index =
      match op.clbits.find? (fun bit => numClbits ≤ bit) with
      | some bit => .error (.clbitOutOfRange bit numClbits index)
      | none => .ok (op.clbits.map (numQubits + ·)) := by
  unfold classicalWires
  induction op.clbits with
  | nil => rfl
  | cons bit clbits ih =>
      rw [List.mapM_cons, ih]
      by_cases inside : bit < numClbits
      · rw [if_pos inside, List.find?_cons_of_neg (by simpa using inside)]
        cases clbits.find? (fun bit => numClbits ≤ bit) <;> rfl
      · rw [if_neg inside, List.find?_cons_of_pos (by simpa using inside)]
        rfl

/-! ## Validation -/

theorem length_params_operation (op : OperationDescription) (element : Element) :
    (op.operation element).params.length = op.params.length := by
  unfold operation
  cases params : op.params with
  | nil => rfl
  | cons p params => simp [Operation.params]

theorem accepts_iff_fits {c : Circuit} (sameQubits : c.numQubits = numQubits)
    (sameClbits : c.numClbits = numClbits) :
    c.Accepts (op.operation element) op.qubits (op.clbits.map (numQubits + ·)) ↔
      op.Fits element numQubits numClbits := by
  subst sameQubits sameClbits
  have injective : Function.Injective (c.numQubits + ·) := fun _ _ same => Nat.add_left_cancel same
  have length : (op.clbits.map (c.numQubits + ·)).length = op.clbits.length := List.length_map _
  have nonempty_iff : op.qubits ++ op.clbits.map (c.numQubits + ·) ≠ [] ↔
      op.qubits ≠ [] ∨ op.clbits ≠ [] := by
    simp [imp_iff_not_or]
  constructor
  · intro accepts
    obtain ⟨distinctQubits, distinctClbits, -⟩ := List.nodup_append.mp accepts.nodup
    exact {
      operation := accepts.operation
      somewhere := nonempty_iff.mp accepts.nonempty
      qubitArity := accepts.numQubits
      clbitArity := fun n fixed => (accepts.numClbits n fixed).trans length
      paramArity := fun n fixed =>
        (accepts.numParams n fixed).trans (length_params_operation op element)
      distinctQubits
      distinctClbits := distinctClbits.of_map
      qubitsInside := accepts.quantum
      clbitsInside := fun bit member =>
        Nat.lt_of_add_lt_add_left (accepts.classical _ (List.mem_map_of_mem member)).2 }
  · intro fits
    have apart : op.qubits.Disjoint (op.clbits.map (c.numQubits + ·)) := by
      intro w quantum classical
      obtain ⟨bit, -, rfl⟩ := List.mem_map.mp classical
      exact absurd (fits.qubitsInside _ quantum) (Nat.not_lt.mpr (Nat.le_add_right ..))
    exact {
      operation := fits.operation
      nonempty := nonempty_iff.mpr fits.somewhere
      numQubits := fits.qubitArity
      numClbits := fun n fixed => (fits.clbitArity n fixed).trans length.symm
      numParams := fun n fixed =>
        (fits.paramArity n fixed).trans (length_params_operation op element).symm
      nodup := fits.distinctQubits.append (fits.distinctClbits.map injective) apart
      quantum := fits.qubitsInside
      classical := List.forall_mem_map.mpr fun bit member =>
        ⟨Nat.le_add_right .., Nat.add_lt_add_left (fits.clbitsInside bit member) _⟩ }

/-- Validation asks for nothing but the numbers of wires. -/
theorem validate_congr {b c : Circuit} (sameQubits : b.numQubits = c.numQubits)
    (sameClbits : b.numClbits = c.numClbits) (operation : Operation) (qubits clbits : List WireId) :
    b.validate operation qubits clbits = c.validate operation qubits clbits := by
  simp only [Circuit.validate, Circuit.numWires, sameQubits, sameClbits]

/-! ## Refusals -/

theorem Refused.unique {error error' : DescriptionError}
    (refused : op.Refused numQubits numClbits index error)
    (refused' : op.Refused numQubits numClbits index error') : error = error' := by
  have outside : ∀ {bit}, op.clbits.find? (fun bit => numClbits ≤ bit) = some bit →
      ¬ ∀ bit ∈ op.clbits, bit < numClbits := by
    intro bit first inside
    cases (find?_outside_eq_none_iff.mpr inside).symm.trans first
  -- each reason is given only if none of those before it is there, so two of them are the same
  cases refused with
  | gate unknown =>
      cases refused' with
      | gate => rfl
      | clbit named => cases unknown.symm.trans named
      | invalid named => cases unknown.symm.trans named
  | clbit named first =>
      cases refused' with
      | gate unknown => cases unknown.symm.trans named
      | clbit _ first' =>
          cases first.symm.trans first'
          rfl
      | invalid _ inside => exact absurd inside (outside first)
  | invalid named inside invalid =>
      cases refused' with
      | gate unknown => cases unknown.symm.trans named
      | clbit _ first => exact absurd inside (outside first)
      | invalid named' _ invalid' =>
          cases named.symm.trans named'
          cases invalid.symm.trans invalid'
          rfl

end OperationDescription

/-! ## Building -/

/-- The wires that some operations are put on, each counted as often as it is used. -/
def numPlaces (ops : List OperationDescription) : Nat :=
  (ops.map fun op => op.qubits.length + op.clbits.length).sum

namespace CircuitDescription

variable {d : CircuitDescription} {c c' : Circuit} {op : OperationDescription}
  {ops done : List OperationDescription} {index : Nat} {error : DescriptionError}

/-- The graph has numbers for the anchors of the wires, for some operations and for the edges. -/
def HasRoom (d : CircuitDescription) (ops : List OperationDescription) : Prop :=
  2 * (d.numQubits + d.numClbits) + ops.length ≤ Graph.maxSize ∧
    d.numQubits + d.numClbits + numPlaces ops ≤ Graph.maxSize

theorem HasRoom.of_append (room : d.HasRoom (done ++ ops)) : d.HasRoom done := by
  obtain ⟨vertices, edges⟩ := room
  rw [List.length_append] at vertices
  rw [numPlaces, List.map_append, List.sum_append] at edges
  refine ⟨?_, ?_⟩
  · omega
  · rw [numPlaces]
    omega

/-- A circuit with the wires of a description after some operations have been added. -/
structure Underway (d : CircuitDescription) (done : List OperationDescription) (c : Circuit) :
    Prop where
  laid : c.LaidOut
  numQubits : c.numQubits = d.numQubits
  numClbits : c.numClbits = d.numClbits
  numVertices : c.graph.numVertices = 2 * (d.numQubits + d.numClbits) + done.length
  numEdges : c.numEdges = d.numQubits + d.numClbits + numPlaces done

theorem underway_blank (d : CircuitDescription) :
    d.Underway [] (Circuit.blank d.numQubits d.numClbits d.globalPhase) := by
  obtain ⟨numQubits, numClbits, -⟩ := Circuit.blank_spec d.numQubits d.numClbits d.globalPhase
  obtain ⟨numVertices, numEdges⟩ := Circuit.blank_sizes d.numQubits d.numClbits d.globalPhase
  exact ⟨Circuit.laidOut_blank .., numQubits, numClbits, numVertices, numEdges⟩

theorem Underway.fits_iff (underway : d.Underway done c) : c.fits = true ↔ d.HasRoom done := by
  rw [Circuit.fits_iff, underway.numVertices, underway.numEdges]
  exact Iff.rfl

/-- If its classical bits are in range, it is left to the circuit whether an operation is added. -/
theorem addDescribed_eq {element : Element} (named : Element.ofName? op.gate = some element)
    (inside : ∀ bit ∈ op.clbits, bit < d.numClbits) (c : Circuit) (index : Nat) :
    d.addDescribed c op index =
      match (Circuit.addOperation (op.operation element) op.qubits
        (op.clbits.map (d.numQubits + ·))).run c with
      | .ok _ c => .ok c
      | .error cause _ => .error (.refused index cause) := by
  have wires := op.classicalWires_eq d.numQubits d.numClbits index
  rw [OperationDescription.find?_outside_eq_none_iff.mpr inside] at wires
  rw [addDescribed, named]
  dsimp only
  rw [wires]
  rfl

theorem Underway.add {element : Element} (underway : d.Underway done c)
    (accepts : c.Accepts (op.operation element) op.qubits (op.clbits.map (d.numQubits + ·))) :
    d.Underway (done ++ [op]) ((Circuit.addOperation (op.operation element) op.qubits
      (op.clbits.map (d.numQubits + ·))).after c) := by
  obtain ⟨line, layout⟩ := underway.laid
  have extended := layout.extended_addOperation accepts
  refine ⟨extended.laid, extended.numQubits.trans underway.numQubits,
    extended.numClbits.trans underway.numClbits, ?_, ?_⟩
  · rw [extended.graph_numVertices layout, underway.numVertices, List.length_append, Nat.add_assoc]
    rfl
  · rw [extended.numEdges layout, underway.numEdges, numPlaces, numPlaces, List.map_append,
      List.sum_append, Nat.add_assoc]
    simp [Circuit.edgesFor, Record.label, Operation.label, Record.unwired]

/-- Whatever comes before it, an operation is added if it is well formed and refused if not. -/
theorem Underway.addDescribed_cases (underway : d.Underway done c) (op : OperationDescription)
    (index : Nat) :
    (op.WellFormed d.numQubits d.numClbits ∧
      ∃ c', d.addDescribed c op index = .ok c' ∧ d.Underway (done ++ [op]) c') ∨
    ∃ error, d.addDescribed c op index = .error error ∧
      op.Refused d.numQubits d.numClbits index error := by
  obtain ⟨blankQubits, blankClbits, -⟩ := Circuit.blank_spec d.numQubits d.numClbits Binary64.zero
  cases named : Element.ofName? op.gate with
  | none => exact .inr ⟨_, by rw [addDescribed, named], .gate named⟩
  | some element =>
      cases first : op.clbits.find? (fun bit => d.numClbits ≤ bit) with
      | some bit =>
          have outside := op.classicalWires_eq d.numQubits d.numClbits index
          rw [first] at outside
          refine .inr ⟨_, ?_, .clbit named first⟩
          rw [addDescribed, named]
          exact congrArg (· >>= _) outside
      | none =>
          have inside := OperationDescription.find?_outside_eq_none_iff.mp first
          have run := Circuit.addOperation_run (op.operation element) op.qubits
            (op.clbits.map (d.numQubits + ·)) c
          rw [addDescribed_eq named inside]
          cases valid : c.validate (op.operation element) op.qubits
              (op.clbits.map (d.numQubits + ·)) with
          | error cause =>
              rw [valid] at run
              -- the operations before this one have changed neither number of wires
              rw [OperationDescription.validate_congr (underway.numQubits.trans blankQubits.symm)
                (underway.numClbits.trans blankClbits.symm)] at valid
              exact .inr ⟨_, by rw [run], .invalid named inside valid⟩
          | ok _ =>
              rw [valid] at run
              have accepts := Circuit.validate_eq_ok_iff.mp valid
              have fits := (OperationDescription.accepts_iff_fits underway.numQubits
                underway.numClbits).mp accepts
              refine .inl ⟨⟨element, named, fits⟩, _, by rw [run], ?_⟩
              rw [← Edit.after_eq_of_run run]
              exact underway.add accepts

theorem Underway.addDescribed_eq_ok (underway : d.Underway done c)
    (added : d.addDescribed c op index = .ok c') :
    op.WellFormed d.numQubits d.numClbits ∧ d.Underway (done ++ [op]) c' := by
  rcases underway.addDescribed_cases op index with
    ⟨wellFormed, c₁, added', next⟩ | ⟨cause, failed, -⟩
  · cases added.symm.trans added'
    exact ⟨wellFormed, next⟩
  · cases added.symm.trans failed

theorem Underway.addAll (underway : d.Underway done c)
    (run : (ops.zipIdx index).foldlM (fun c (op, index) => d.addDescribed c op index) c = .ok c') :
    d.Underway (done ++ ops) c' := by
  induction ops generalizing c done index with
  | nil =>
      cases run
      rwa [List.append_nil]
  | cons op ops ih =>
      rw [List.zipIdx_cons, List.foldlM_cons, bind_eq_ok_iff] at run
      obtain ⟨c₁, added, rest⟩ := run
      have whole := ih (underway.addDescribed_eq_ok added).2 rest
      rwa [List.append_assoc] at whole

theorem addNumbered_eq_ok_iff :
    d.addNumbered c op index = .ok c' ↔ d.addDescribed c op index = .ok c' ∧ c'.fits = true := by
  rw [addNumbered, bind_eq_ok_iff]
  constructor
  · rintro ⟨c₁, added, room⟩
    obtain ⟨rfl, fits⟩ := Circuit.orPanic_eq_ok_iff.mp room
    exact ⟨mapError_eq_ok_iff.mp added, fits⟩
  · rintro ⟨added, fits⟩
    exact ⟨c', mapError_eq_ok_iff.mpr added, Circuit.orPanic_of_fits fits⟩

/-- Adding operations goes well if it does with room for any number of them, and there is room for
all of them. -/
theorem Underway.addAllNumbered_eq_ok_iff (underway : d.Underway done c) (room : d.HasRoom done) :
    (ops.zipIdx index).foldlM (fun c (op, index) => d.addNumbered c op index) c = .ok c' ↔
      (ops.zipIdx index).foldlM (fun c (op, index) => d.addDescribed c op index) c = .ok c' ∧
        d.HasRoom (done ++ ops) := by
  induction ops generalizing c done index with
  | nil =>
      simp only [List.zipIdx_nil, List.foldlM_nil, List.append_nil, pure_eq_ok, Except.ok.injEq,
        and_iff_left room]
  | cons op ops ih =>
      simp only [List.zipIdx_cons, List.foldlM_cons, bind_eq_ok_iff, addNumbered_eq_ok_iff]
      constructor
      · rintro ⟨c₁, ⟨added, fits⟩, rest⟩
        have next := (underway.addDescribed_eq_ok added).2
        obtain ⟨run, all⟩ := (ih next (next.fits_iff.mp fits)).mp rest
        rw [List.append_assoc] at all
        exact ⟨⟨c₁, added, run⟩, all⟩
      · rintro ⟨⟨c₁, added, run⟩, all⟩
        have next := (underway.addDescribed_eq_ok added).2
        have all' : d.HasRoom (done ++ [op] ++ ops) := by rwa [List.append_assoc]
        exact ⟨c₁, ⟨added, next.fits_iff.mpr all'.of_append⟩,
          (ih next all'.of_append).mpr ⟨run, all'⟩⟩

/-- The circuit is the one that is built without regard to its size, if there is room for it. -/
theorem toCircuit_eq_ok_iff :
    d.toCircuit = .ok c ↔ d.build = .ok c ∧ d.HasRoom d.operations := by
  have start := d.underway_blank
  rw [toCircuit, Circuit.create_eq, bind_eq_ok_iff]
  constructor
  · rintro ⟨c₁, made, run⟩
    obtain ⟨rfl, fits⟩ := Circuit.orPanic_eq_ok_iff.mp made
    exact (start.addAllNumbered_eq_ok_iff (start.fits_iff.mp fits)).mp run
  · rintro ⟨built, room⟩
    have none : d.HasRoom [] := HasRoom.of_append (show d.HasRoom ([] ++ d.operations) from room)
    exact ⟨_, Circuit.orPanic_of_fits (start.fits_iff.mpr none),
      (start.addAllNumbered_eq_ok_iff none).mpr ⟨built, room⟩⟩

/-- A classical bit that is out of range is told before a qubit that is, and before an unknown gate
behind it. -/
example :
    let d : CircuitDescription :=
      { numQubits := 1, numClbits := 1
        operations := [⟨"h", [0], [], []⟩, ⟨"measure", [7], [1], []⟩, ⟨"unheard of", [], [], []⟩] }
    d.toCircuit = .error (.error (.clbitOutOfRange 1 1 1)) := by
  decide +kernel

end CircuitDescription

end CircuitDag
