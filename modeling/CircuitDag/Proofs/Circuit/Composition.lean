import CircuitDag.Proofs.Circuit.Meaning
import CircuitDag.Proofs.Circuit.Operands

/-!
# Appending circuits

A valid order maps the wires of a circuit to distinct wires of the same kinds. The operations of the
circuit are then accepted one after the other, so nothing can fail once the order has been accepted.
-/

set_option autoImplicit false

namespace CircuitDag.Circuit

variable {c c' other : Circuit} {op : Operation} {qubits clbits order : List WireId}

/-! ## Orders of wires -/

/-- An order gives every wire of another circuit a wire of its own, of the same kind. -/
structure Matches (c other : Circuit) (order : List WireId) : Prop where
  length : order.length = other.numWires
  nodup : order.Nodup
  placed : ∀ i w, order[i]? = some w → w < c.numWires ∧ (i < other.numQubits ↔ w < c.numQubits)

theorem checkOrder_eq_ok_iff {source : WireId} {seen wires : List WireId} :
    checkOrder c other source seen wires = .ok () ↔
      (∀ i w, wires[i]? = some w →
        w < c.numWires ∧ (source + i < other.numQubits ↔ w < c.numQubits)) ∧
      wires.Nodup ∧ ∀ w ∈ wires, w ∉ seen := by
  induction wires generalizing source seen with
  | nil => simp [checkOrder]
  | cons w wires ih =>
      have kinds : other.isQuantum source ≠ c.isQuantum w ↔
          ¬ (source < other.numQubits ↔ w < c.numQubits) := by
        simp [isQuantum, decide_eq_decide]
      have first : (∀ i x, (w :: wires)[i]? = some x →
          x < c.numWires ∧ (source + i < other.numQubits ↔ x < c.numQubits)) ↔
          (w < c.numWires ∧ (source < other.numQubits ↔ w < c.numQubits)) ∧
            ∀ i x, wires[i]? = some x →
              x < c.numWires ∧ (source + 1 + i < other.numQubits ↔ x < c.numQubits) := by
        constructor
        · intro all
          refine ⟨all 0 w rfl, fun i x position => ?_⟩
          rw [Nat.add_assoc, Nat.add_comm 1 i]
          exact all (i + 1) x position
        · rintro ⟨here, rest⟩ (_ | i) x position
          · cases position
            exact here
          · rw [Nat.add_comm i 1, ← Nat.add_assoc]
            exact rest i x position
      rw [checkOrder, first, List.nodup_cons, List.forall_mem_cons]
      by_cases outside : c.numWires ≤ w
      · simp [outside, Nat.not_lt.mpr outside]
      · by_cases repeated : w ∈ seen
        · simp [outside, repeated]
        · by_cases kind : source < other.numQubits ↔ w < c.numQubits
          · rw [if_neg outside, if_neg repeated, if_neg (kinds.not.mpr (not_not.mpr kind)), ih]
            simp only [Nat.lt_of_not_le outside, kind, repeated, List.mem_cons, not_or,
              not_false_eq_true, true_and, and_self]
            constructor
            · rintro ⟨placed, unique, apart⟩
              exact ⟨placed, ⟨fun member => (apart w member).1 rfl, unique⟩,
                fun x member => (apart x member).2⟩
            · rintro ⟨placed, ⟨fresh, unique⟩, apart⟩
              exact ⟨placed, unique, fun x member =>
                ⟨fun same => fresh (same ▸ member), apart x member⟩⟩
          · rw [if_neg outside, if_neg repeated, if_pos (kinds.mpr kind)]
            simp [kind]

theorem validateOrder_eq_ok_iff : c.validateOrder other order = .ok () ↔ c.Matches other order := by
  unfold validateOrder
  by_cases length : order.length = other.numWires
  · rw [if_neg (not_not.mpr length), checkOrder_eq_ok_iff]
    simp only [Nat.zero_add, List.not_mem_nil, not_false_eq_true, implies_true, and_true]
    exact ⟨fun ⟨placed, unique⟩ => ⟨length, unique, placed⟩, fun m => ⟨m.placed, m.nodup⟩⟩
  · rw [if_pos length]
    exact iff_of_false nofun fun m => length m.length

/-! ## Operations on mapped wires -/

theorem Matches.mapWire_eq (matched : c.Matches other order) {w : WireId}
    (bound : w < other.numWires) : order[w]? = some (mapWire order w) := by
  rw [← matched.length] at bound
  rw [mapWire, List.getD_eq_getElem?_getD, List.getElem?_eq_getElem bound]
  rfl

theorem Matches.mapWire_injective (matched : c.Matches other order) {w x : WireId}
    (left : w < other.numWires) (right : x < other.numWires)
    (same : mapWire order w = mapWire order x) : w = x := by
  have first := matched.mapWire_eq left
  rw [same, ← matched.mapWire_eq right] at first
  exact (List.getElem?_inj (matched.length ▸ left) matched.nodup).mp first

/-- An operation that a circuit accepts is accepted on the mapped wires. -/
theorem Accepts.map (accepts : other.Accepts op qubits clbits) (matched : c.Matches other order) :
    c.Accepts op (qubits.map (mapWire order)) (clbits.map (mapWire order)) := by
  have bounded : ∀ w ∈ qubits ++ clbits, w < other.numWires := by
    intro w member
    rcases List.mem_append.mp member with quantum | classical
    · exact Nat.lt_of_lt_of_le (accepts.quantum w quantum) (Nat.le_add_right ..)
    · exact (accepts.classical w classical).2
  have placed : ∀ w ∈ qubits ++ clbits, mapWire order w < c.numWires ∧
      (w < other.numQubits ↔ mapWire order w < c.numQubits) := fun w member =>
    matched.placed w _ (matched.mapWire_eq (bounded w member))
  refine ⟨accepts.operation, ?_, ?_, ?_, accepts.numParams, ?_, ?_, ?_⟩
  · rw [← List.map_append]
    exact fun none => accepts.nonempty (List.map_eq_nil_iff.mp none)
  · rw [List.length_map]
    exact accepts.numQubits
  · rw [List.length_map]
    exact accepts.numClbits
  · rw [← List.map_append]
    exact accepts.nodup.map_on fun w left x right =>
      matched.mapWire_injective (bounded w left) (bounded x right)
  · intro x member
    obtain ⟨w, quantum, rfl⟩ := List.mem_map.mp member
    exact (placed w (List.mem_append_left _ quantum)).2.mp (accepts.quantum w quantum)
  · intro x member
    obtain ⟨w, classical, rfl⟩ := List.mem_map.mp member
    obtain ⟨bound, kind⟩ := placed w (List.mem_append_right _ classical)
    exact ⟨Nat.le_of_not_lt fun quantum =>
      Nat.not_lt_of_le (accepts.classical w classical).1 (kind.mpr quantum), bound⟩

theorem Accepts.of_eq (accepts : c.Accepts op qubits clbits)
    (numQubits : c'.numQubits = c.numQubits)
    (numClbits : c'.numClbits = c.numClbits) : c'.Accepts op qubits clbits := by
  have numWires : c'.numWires = c.numWires := by rw [numWires, numQubits, numClbits, numWires]
  refine { accepts with quantum := ?_, classical := ?_ }
  · rw [numQubits]
    exact accepts.quantum
  · rw [numQubits, numWires]
    exact accepts.classical

/-! ## Appending -/

theorem place_sizes (c : Circuit) (op : Operation) (qubits clbits : List WireId)
    (successors : List Port) : (c.place op qubits clbits successors).numQubits = c.numQubits ∧
      (c.place op qubits clbits successors).numClbits = c.numClbits := by
  have same := (rewired_spliceAll c.records.size
    ((qubits ++ clbits).zip successors).zipIdx (c.pushVertex op qubits clbits)).sameSeats
  exact ⟨same.numQubits, same.numClbits⟩

theorem globalPhase_addOperation (c : Circuit) (op : Operation)
    (qubits clbits : List WireId) :
    ((addOperation op qubits clbits).after c).globalPhase = c.globalPhase := by
  rw [Edit.after, addOperation_run]
  cases c.validate op qubits clbits with
  | error cause => rfl
  | ok _ =>
      have rewired := rewired_spliceAll c.records.size
        ((qubits ++ clbits).zip (c.outputPorts (qubits ++ clbits))).zipIdx
        (c.pushVertex op qubits clbits)
      have placed := congrArg Circuit.globalPhase rewired.frame
      exact placed

theorem discard_addOperation_run (accepts : c.Accepts op qubits clbits) :
    EStateM.run (discard (addOperation op qubits clbits)) c =
      .ok () (c.place op qubits clbits (c.outputPorts (qubits ++ clbits))) := by
  unfold discard
  rw [map_const, Function.comp_apply, ← bind_pure_comp, EStateM.run_bind, addOperation_run,
    validate_eq_ok_iff.mpr accepts]
  rfl

/-- Operations that are all accepted are added one after the other. -/
theorem addAll_run {ops : List (VertexId × Record)} {qubits clbits : Record → List WireId}
    (accepted : ∀ v r, (v, r) ∈ ops → c.Accepts r.operation (qubits r) (clbits r)) :
    ∃ c', (ops.forM fun (_, r) =>
      discard (addOperation r.operation (qubits r) (clbits r))).run c = .ok () c' := by
  induction ops generalizing c with
  | nil => exact ⟨c, rfl⟩
  | cons entry ops ih =>
      obtain ⟨v, r⟩ := entry
      have accepts := accepted v r List.mem_cons_self
      obtain ⟨numQubits, numClbits⟩ := place_sizes c r.operation (qubits r) (clbits r)
        (c.outputPorts (qubits r ++ clbits r))
      obtain ⟨c', rest⟩ := ih fun u s member =>
        (accepted u s (List.mem_cons_of_mem _ member)).of_eq numQubits numClbits
      refine ⟨c', ?_⟩
      change EStateM.run (discard (addOperation r.operation (qubits r) (clbits r)) >>= fun _ =>
        ops.forM _) c = _
      rw [EStateM.run_bind, discard_addOperation_run accepts]
      exact rest

/-- The operations of another circuit are accepted on the wires that a valid order gives them. -/
theorem Layout.accepts_mapped {line : WireId → List VertexId} (layout : other.Layout line)
    (suited : other.records.Suited) (matched : c.Matches other order) {v : VertexId} {r : Record}
    (member : (v, r) ∈ other.topologicalOperations) :
    c.Accepts r.operation (r.quantumWires.map (mapWire order))
      (r.classicalWires.map (mapWire order)) := by
  obtain ⟨live, operation⟩ := layout.mem_topologicalOperations.mp member
  exact (layout.accepts suited live operation).map matched

theorem validateOrder_of_append {order? : Option (List WireId)}
    (run : (append other order?).run c = .ok () c') :
    c.validateOrder other (order?.getD (c.defaultOrder other)) = .ok () := by
  cases valid : c.validateOrder other (order?.getD (c.defaultOrder other)) with
  | error cause => cases (append_refused valid).symm.trans run
  | ok _ => rfl

/-- Once the order has been accepted, all operations of a reachable circuit can be appended. -/
theorem append_succeeds {order? : Option (List WireId)} (reachable : other.Reachable)
    (valid : c.validateOrder other (order?.getD (c.defaultOrder other)) = .ok ()) :
    ∃ c', (append other order?).run c = .ok () c' := by
  obtain ⟨line, layout⟩ := reachable.laidOut
  have matched := validateOrder_eq_ok_iff.mp valid
  obtain ⟨c', added⟩ := addAll_run fun v r member =>
    layout.accepts_mapped reachable.suited matched member
  refine ⟨c'.setGlobalPhase (c'.globalPhase + other.globalPhase), ?_⟩
  rw [append_run valid, EStateM.run_bind, added]
  rfl

theorem append_yields {order? : Option (List WireId)} (reachable : other.Reachable) (c : Circuit) :
    (append other order?).Yields c fun _ _ =>
      c.validateOrder other (order?.getD (c.defaultOrder other)) = .ok () := by
  cases valid : c.validateOrder other (order?.getD (c.defaultOrder other)) with
  | error cause => exact .inl ⟨_, append_refused valid⟩
  | ok _ =>
      obtain ⟨c', run⟩ := append_succeeds reachable valid
      exact .inr ⟨(), c', run, rfl⟩

/-! ## Failed edits -/

/-- Edits of reachable circuits that fail change nothing. What comes after the checks cannot fail:
neither the rewiring when an operation is removed, nor any of the additions when a circuit is
appended. -/
theorem failed_edits_change_nothing (reachable : c.Reachable) :
    addQubit.Atomic c ∧
    (∀ op qubits clbits, (addOperation op qubits clbits).Atomic c) ∧
    (∀ op before qubits clbits, (insertOperation op before qubits clbits).Atomic c) ∧
    (∀ v, (removeOperation v).Atomic c) ∧
    (∀ vs map?, (removeBlock vs map?).Atomic c) ∧
    (∀ v position p, (setParam v position p).Atomic c) ∧
    (∀ other : Circuit, other.Reachable → ∀ order?, (append other order?).Atomic c) ∧
    (∀ v r, c.checkRemovable v = .ok r →
      ∃ records, (Records.rewireAcross v).run c.records = .ok () records) ∧
    (∀ other : Circuit, other.Reachable → ∀ order?,
      c.validateOrder other (order?.getD (c.defaultOrder other)) = .ok () →
      ∃ c', (append other order?).run c = .ok () c') := by
  have laid := reachable.laidOut
  obtain ⟨line, layout⟩ := id laid
  have rewires : ∀ v r, c.checkRemovable v = .ok r →
      ∃ records, (Records.rewireAcross v).run c.records = .ok () records := by
    intro v r removable
    obtain ⟨live, operation⟩ := checkRemovable_eq_ok_iff.mp removable
    exact ⟨_, (layout.rewireAcross_run live operation).1⟩
  exact ⟨(addQubit_yields c).atomic,
    fun op qubits clbits => (addOperation_yields c op qubits clbits).atomic,
    fun op before qubits clbits => (insertOperation_yields c op before qubits clbits).atomic,
    fun v => (laid.removeOperation_yields v).atomic,
    fun vs map? => (removeBlock_yields c vs map?).atomic,
    fun v position p => (setParam_yields c v position p).atomic,
    fun other reachable order? => (append_yields reachable c).atomic,
    rewires,
    fun other reachable order? valid => append_succeeds reachable valid⟩

/-- A measured bit stands in the way of a qubit, and an anchor cannot be removed; the circuit can be
appended to itself. -/
theorem measured_bit_fails_cleanly :
    let c := Change.after (blank 1 1) (.addOperation { element := .measure } [0] [1])
    addQubit.run c = .error (.validation (.classicalWiresPresent 1)) c ∧
      (removeOperation 0).run c = .error (.invalidVertex 0 .anchorNotRemovable) c ∧
      ∃ c', (append c).run c = .ok () c' := by
  intro c
  have reachable : c.Reachable :=
    (Reachable.blank 1 1 Binary64.zero).change (.addOperation { element := .measure } [0] [1])
  obtain ⟨kept, -, -, removal, -, -, -, -, appends⟩ := failed_edits_change_nothing reachable
  obtain ⟨c₁, refused⟩ :
      ∃ c₁, addQubit.run c = .error (.validation (.classicalWiresPresent 1)) c₁ :=
    ⟨_, rfl⟩
  obtain ⟨c₂, anchored⟩ : ∃ c₂,
      (removeOperation 0).run c = .error (.invalidVertex 0 .anchorNotRemovable) c₂ := ⟨_, rfl⟩
  cases kept _ _ refused
  cases removal 0 _ _ anchored
  exact ⟨refused, anchored, appends c reachable none rfl⟩

end CircuitDag.Circuit
