import CircuitDag.Proofs.Circuit.Composition
import CircuitDag.Proofs.Circuit.Measures

/-!
# What appending a circuit adds

Operations that are added one after the other come last on their wires and get the next numbers;
everything else stays as it is. A circuit that is appended is added in this way along its
topological listing, so each wire is continued by the wire that is mapped to it.
-/

set_option autoImplicit false

namespace CircuitDag

/-- A label on other wires. -/
def Label.rename (f : WireId → WireId) (label : Label) : Label :=
  { label with wires := label.wires.map f }

namespace Circuit

variable {c c' c'' other : Circuit} {line : WireId → List VertexId} {new new' : List Record}
  {op : Operation} {qubits clbits order : List WireId} {v : VertexId} {w : WireId} {r : Record}

/-! ## Added operations -/

/-- A circuit to which operations have been added, each of them before the outputs of its wires. The
list has their records, ports apart. -/
structure Extended (c : Circuit) (new : List Record) (c' : Circuit) : Prop where
  laid : c'.LaidOut
  size : c'.records.size = c.records.size + new.length
  old : ∀ v < c.records.size, c'.records.bare? v = c.records.bare? v
  added : ∀ k r, new[k]? = some r → c'.records.bare? (c.records.size + k) = some r.bare
  operations : ∀ r ∈ new, r.isAnchor = false ∧ r.removed = false
  numQubits : c'.numQubits = c.numQubits
  numClbits : c'.numClbits = c.numClbits
  globalPhase : c'.globalPhase = c.globalPhase
  wireLabels : ∀ w, c'.wireLabels w =
    c.wireLabels w ++ standingAt Label.wires w (new.map Record.label)

theorem LaidOut.extended_nil (laid : c.LaidOut) : c.Extended [] c :=
  ⟨laid, rfl, fun _ _ => rfl, by simp, by simp, rfl, rfl, rfl, by simp [standingAt]⟩

theorem Extended.trans (first : c.Extended new c') (second : c'.Extended new' c'') :
    c.Extended (new ++ new') c'' where
  laid := second.laid
  size := by rw [second.size, first.size, List.length_append, Nat.add_assoc]
  old v bound := by
    have later : v < c'.records.size := first.size ▸ Nat.lt_add_right _ bound
    rw [second.old v later, first.old v bound]
  added k r position := by
    rcases Nat.lt_or_ge k new.length with early | late
    · rw [List.getElem?_append_left early] at position
      have bound : c.records.size + k < c'.records.size :=
        first.size ▸ Nat.add_lt_add_left early _
      rw [second.old _ bound, first.added k r position]
    · rw [List.getElem?_append_right late] at position
      have number : c.records.size + k = c'.records.size + (k - new.length) := by
        rw [first.size]
        omega
      rw [number, second.added _ r position]
  operations := List.forall_mem_append.mpr ⟨first.operations, second.operations⟩
  numQubits := second.numQubits.trans first.numQubits
  numClbits := second.numClbits.trans first.numClbits
  globalPhase := second.globalPhase.trans first.globalPhase
  wireLabels w := by
    rw [second.wireLabels, first.wireLabels, List.map_append, standingAt_append, List.append_assoc]

/-- What adding one operation does. -/
theorem Layout.extended_addOperation (layout : c.Layout line)
    (accepts : c.Accepts op qubits clbits) :
    c.Extended [Record.unwired op qubits clbits]
      ((Circuit.addOperation op qubits clbits).after c) := by
  obtain ⟨line', grown⟩ := layout.addOperation accepts
  have size := (Records.size_of_bare? grown.bare).trans (Records.size_push ..)
  refine ⟨⟨line', grown.layout⟩, size, fun v bound => ?_, fun k r position => ?_, ?_,
    grown.numQubits, grown.numClbits, globalPhase_addOperation .., fun w => ?_⟩
  · rw [grown.bare, Records.bare?, Records.get?_push_of_lt _ bound]
    rfl
  · obtain ⟨rfl, rfl⟩ : k = 0 ∧ Record.unwired op qubits clbits = r := by
      simpa [List.getElem?_singleton] using position
    rw [grown.bare, Nat.add_zero, Records.bare?, Records.get?_push_size]
    rfl
  · rw [List.forall_mem_singleton]
    exact ⟨accepts.operation, rfl⟩
  · exact layout.wireLabels_addOperation accepts grown w

theorem LaidOut.extended (laid : c.LaidOut) {ops : List (VertexId × Record)}
    {qubits clbits : Record → List WireId}
    (accepted : ∀ v r, (v, r) ∈ ops → c.Accepts r.operation (qubits r) (clbits r))
    (run : (ops.forM fun (_, r) =>
      discard (Circuit.addOperation r.operation (qubits r) (clbits r))).run c = .ok () c') :
    c.Extended (ops.map fun entry =>
      Record.unwired entry.2.operation (qubits entry.2) (clbits entry.2)) c' := by
  induction ops generalizing c with
  | nil =>
      cases run
      exact laid.extended_nil
  | cons entry ops ih =>
      obtain ⟨v, r⟩ := entry
      obtain ⟨line, layout⟩ := laid
      have accepts := accepted v r List.mem_cons_self
      have first := layout.extended_addOperation accepts
      rw [Edit.after, addOperation_run, validate_eq_ok_iff.mpr accepts] at first
      change EStateM.run (discard (Circuit.addOperation r.operation (qubits r) (clbits r)) >>=
        fun _ => ops.forM _) c = _ at run
      rw [EStateM.run_bind, discard_addOperation_run accepts] at run
      exact first.trans (ih first.laid (fun u s member =>
        (accepted u s (List.mem_cons_of_mem _ member)).of_eq first.numQubits first.numClbits) run)

/-- In the listing the new operations come behind the old ones, up to swaps of independent ones. -/
theorem Extended.rearranged (extended : c.Extended new c') (layout : c.Layout line) :
    Rearranged Label.wires c'.labels (c.labels ++ new.map Record.label) := by
  obtain ⟨line', layout'⟩ := extended.laid
  apply rearranged_of_standingAt_eq
  · intro label member
    exact (layout'.label_wires label member).1
  · intro label member
    cases List.mem_append.mp member with
    | inl old => exact (layout.label_wires label old).1
    | inr added =>
        obtain ⟨r, listed, rfl⟩ := List.mem_map.mp added
        obtain ⟨k, position⟩ := List.getElem?_of_mem listed
        obtain ⟨s, found, agree⟩ := Option.map_eq_some_iff.mp (extended.added k r position)
        have kept := (Record.removed_of_bare agree).trans (extended.operations r listed).2
        have nonempty := (layout'.wired _ s ⟨found, kept⟩).nonempty
        rw [Record.wires_of_bare agree] at nonempty
        exact nonempty
  · intro w
    rw [layout'.standingAt_labels, standingAt_append, layout.standingAt_labels]
    exact extended.wireLabels w

/-! ## Counts and parameters -/

theorem numOperations_eq (c : Circuit) :
    c.numOperations = (List.range c.records.size).countP c.isOperation := by
  rw [numOperations, Records.live, List.countP_filterMap]
  refine List.countP_congr fun v _ => ?_
  rw [isOperation]
  cases c.records.get? v with
  | none => simp
  | some r => cases removed : r.removed <;> simp [removed, Record.isAnchor, Element.isAnchor]

theorem Extended.numOperations_eq (extended : c.Extended new c') :
    c'.numOperations = c.numOperations + new.length := by
  have old : ∀ v ∈ List.range c.records.size,
      c'.isOperation v = true ↔ c.isOperation v = true := by
    intro v member
    rw [isOperation_eq, extended.old v (List.mem_range.mp member), ← isOperation_eq]
  have added : ∀ k ∈ List.range new.length, c'.isOperation (c.records.size + k) = true := by
    intro k member
    obtain ⟨r, position⟩ : ∃ r, new[k]? = some r :=
      ⟨_, List.getElem?_eq_getElem (List.mem_range.mp member)⟩
    obtain ⟨operation, kept⟩ := extended.operations r (List.mem_of_getElem? position)
    have bare : r.bare.isAnchor = false ∧ r.bare.removed = false := ⟨operation, kept⟩
    rw [isOperation_eq, extended.added k r position, Option.any_some, bare.1, bare.2]
    rfl
  have all : (List.range new.length).countP (c'.isOperation ∘ (c.records.size + ·)) = new.length :=
    (List.countP_eq_length.mpr added).trans List.length_range
  rw [Circuit.numOperations_eq, Circuit.numOperations_eq, extended.size, List.range_add,
    List.countP_append, List.countP_congr old, List.countP_map, all]

/-- A parameter occurs where a vertex has it that has not been removed, if it is symbolic. -/
theorem Layout.holds_iff (layout : c.Layout line) {slot : ParamSlot} {p : Param} :
    c.params.holds slot p = true ↔ p.isSymbolic = true ∧ ∃ r,
      c.records.bare? slot.vertex = some r ∧ r.removed = false ∧
        r.params[slot.position]? = some p := by
  rw [layout.indexed, Records.isLive_iff]
  refine and_congr_right fun _ => ?_
  constructor
  · intro given
    obtain ⟨⟨r, live⟩, found⟩ := given
    rw [Records.param?_eq live.1] at found
    exact ⟨r.bare, by rw [Records.bare?, live.1]; rfl, live.2, found⟩
  · intro given
    obtain ⟨_, same, kept, found⟩ := given
    obtain ⟨r, lookup, rfl⟩ := Option.map_eq_some_iff.mp same
    exact ⟨⟨r, lookup, kept⟩, (Records.param?_eq lookup _).trans found⟩

/-- Parameters stay where they are, and those of the new operations occur at the new numbers. -/
theorem Extended.holds_iff (extended : c.Extended new c') (layout : c.Layout line)
    {slot : ParamSlot} {p : Param} : c'.params.holds slot p = true ↔
      c.params.holds slot p = true ∨ ∃ k r, new[k]? = some r ∧
        slot.vertex = c.records.size + k ∧ p.isSymbolic = true ∧
        r.params[slot.position]? = some p := by
  obtain ⟨line', layout'⟩ := extended.laid
  rw [layout'.holds_iff, layout.holds_iff]
  constructor
  · intro given
    obtain ⟨symbolic, s, same, kept, found⟩ := given
    rcases Nat.lt_or_ge slot.vertex c.records.size with early | late
    · rw [extended.old _ early] at same
      exact .inl ⟨symbolic, s, same, kept, found⟩
    · obtain ⟨k, number⟩ := Nat.exists_eq_add_of_le late
      have bound : k < new.length := by
        have below : slot.vertex < c'.records.size := by
          refine Nat.lt_of_not_le fun beyond => ?_
          cases (Records.bare?_eq_none_iff.mpr beyond).symm.trans same
        rw [extended.size, number] at below
        exact Nat.lt_of_add_lt_add_left below
      obtain ⟨r, position⟩ : ∃ r, new[k]? = some r := ⟨_, List.getElem?_eq_getElem bound⟩
      rw [number, extended.added k r position] at same
      obtain rfl := Option.some.inj same
      exact .inr ⟨k, r, position, number, symbolic, found⟩
  · intro given
    rcases given with ⟨symbolic, s, same, kept, found⟩ | ⟨k, r, position, number, symbolic, found⟩
    · have early : slot.vertex < c.records.size := by
        refine Nat.lt_of_not_le fun beyond => ?_
        cases (Records.bare?_eq_none_iff.mpr beyond).symm.trans same
      exact ⟨symbolic, s, (extended.old _ early).trans same, kept, found⟩
    · have kept := (extended.operations r (List.mem_of_getElem? position)).2
      exact ⟨symbolic, r.bare, number ▸ extended.added k r position, kept, found⟩

/-! ## Labels on mapped wires -/

/-- On a wire to which another one is mapped stand the labels of that one. -/
theorem Matches.standingAt_rename (matched : c.Matches other order) {labels : List Label}
    (bounded : ∀ label ∈ labels, ∀ w ∈ label.wires, w < other.numWires) {i : Nat}
    (position : order[i]? = some w) :
    standingAt Label.wires w (labels.map (Label.rename (mapWire order))) =
      (standingAt Label.wires i labels).map (Label.rename (mapWire order)) := by
  have bound : i < other.numWires := matched.length ▸ (List.getElem?_eq_some_iff.mp position).1
  obtain rfl : mapWire order i = w :=
    Option.some.inj ((matched.mapWire_eq bound).symm.trans position)
  rw [standingAt, standingAt, List.filter_map]
  congr 1
  refine List.filter_congr fun label member => ?_
  rw [Function.comp_apply, decide_eq_decide]
  constructor
  · intro given
    obtain ⟨x, inside, same⟩ := List.mem_map.mp given
    exact matched.mapWire_injective (bounded label member x inside) bound same ▸ inside
  · exact List.mem_map_of_mem

/-- On a wire to which none is mapped stand no labels. -/
theorem Matches.standingAt_eq_nil (matched : c.Matches other order) {labels : List Label}
    (bounded : ∀ label ∈ labels, ∀ w ∈ label.wires, w < other.numWires) (free : w ∉ order) :
    standingAt Label.wires w (labels.map (Label.rename (mapWire order))) = [] := by
  rw [standingAt, List.filter_map, List.map_eq_nil_iff, List.filter_eq_nil_iff]
  intro label member stands
  obtain ⟨x, inside, rfl⟩ := List.mem_map.mp (of_decide_eq_true stands)
  exact free (List.mem_of_getElem? (matched.mapWire_eq (bounded label member x inside)))

/-- The default order fits if there are enough wires of each kind. -/
theorem matches_defaultOrder_iff : c.Matches other (c.defaultOrder other) ↔
    other.numQubits ≤ c.numQubits ∧ other.numClbits ≤ c.numClbits := by
  have quantum : ∀ i < other.numQubits, (c.defaultOrder other)[i]? = some i := by
    intro i bound
    rw [defaultOrder, List.getElem?_append_left (by rwa [List.length_range]),
      List.getElem?_range bound]
  have classical : ∀ i, (c.defaultOrder other)[other.numQubits + i]? =
      if i < other.numClbits then some (c.numQubits + i) else none := by
    intro i
    rw [defaultOrder, List.getElem?_append_right (by simp), List.length_range,
      Nat.add_sub_cancel_left, List.getElem?_map]
    split
    · next bound => rw [List.getElem?_range bound, Option.map_some]
    · next beyond => rw [List.getElem?_eq_none (by simpa using beyond), Option.map_none]
  constructor
  · intro matched
    refine ⟨Nat.le_of_not_lt fun more => ?_, Nat.le_of_not_lt fun more => ?_⟩
    · have kind := (matched.placed _ _ (quantum c.numQubits more)).2
      exact Nat.lt_irrefl _ (kind.mp more)
    · have position := classical c.numClbits
      rw [if_pos more] at position
      exact Nat.lt_irrefl _ (matched.placed _ _ position).1
  · intro given
    obtain ⟨qubits, clbits⟩ := given
    refine ⟨by simp [defaultOrder, numWires], ?_, fun i w position => ?_⟩
    · refine List.nodup_append.mpr ⟨List.nodup_range,
        List.nodup_range.map fun a b => Nat.add_left_cancel, ?_⟩
      intro x left y right same
      obtain ⟨k, -, rfl⟩ := List.mem_map.mp right
      have below : x < c.numQubits := Nat.lt_of_lt_of_le (List.mem_range.mp left) qubits
      exact Nat.not_lt_of_le (Nat.le_add_right c.numQubits k) (same ▸ below)
    · rcases Nat.lt_or_ge i other.numQubits with first | later
      · obtain rfl := Option.some.inj ((quantum i first).symm.trans position)
        have below := Nat.lt_of_lt_of_le first qubits
        exact ⟨Nat.lt_add_right _ below, iff_of_true first below⟩
      · obtain ⟨k, rfl⟩ := Nat.exists_eq_add_of_le later
        rw [classical] at position
        split at position
        · next bound =>
            obtain rfl := Option.some.inj position
            exact ⟨Nat.add_lt_add_left (Nat.lt_of_lt_of_le bound clbits) _,
              iff_of_false (Nat.not_lt_of_le later) (Nat.not_lt_of_le (Nat.le_add_right ..))⟩
        · cases position

/-! ## Appending -/

/-- A circuit with the operations of another one behind its own, wires mapped by an order. -/
structure Appended (c other : Circuit) (order : List WireId) (c' : Circuit) : Prop where
  continued : ∀ i w, order[i]? = some w → c'.wireLabels w =
    c.wireLabels w ++ (other.wireLabels i).map (Label.rename (mapWire order))
  untouched : ∀ w, w ∉ order → c'.wireLabels w = c.wireLabels w
  size : c'.records.size = c.records.size + other.topologicalOperations.length
  kept : ∀ v < c.records.size, c'.records.bare? v = c.records.bare? v
  added : ∀ k v r, other.topologicalOperations[k]? = some (v, r) →
    ∃ s, c'.records.Live (c.records.size + k) s ∧ s.operation = r.operation ∧
      s.quantumWires = r.quantumWires.map (mapWire order) ∧
      s.classicalWires = r.classicalWires.map (mapWire order)
  numQubits : c'.numQubits = c.numQubits
  numClbits : c'.numClbits = c.numClbits
  numOperations : c'.numOperations = c.numOperations + other.numOperations
  globalPhase : c'.globalPhase = c.globalPhase + other.globalPhase
  occurrences : ∀ slot p, c'.params.holds slot p = true ↔ c.params.holds slot p = true ∨
    ∃ k v r, other.topologicalOperations[k]? = some (v, r) ∧ slot.vertex = c.records.size + k ∧
      other.params.holds ⟨v, slot.position⟩ p = true

/-- The record that an operation of another circuit gets, ports apart. -/
def appendedRecord (order : List WireId) (r : Record) : Record :=
  Record.unwired r.operation (r.quantumWires.map (mapWire order))
    (r.classicalWires.map (mapWire order))

theorem quantumWires_appendedRecord (order : List WireId) (r : Record) :
    (appendedRecord order r).quantumWires = r.quantumWires.map (mapWire order) := List.take_left

theorem classicalWires_appendedRecord (order : List WireId) (r : Record) :
    (appendedRecord order r).classicalWires = r.classicalWires.map (mapWire order) := List.drop_left

theorem label_appendedRecord (order : List WireId) (r : Record) :
    (appendedRecord order r).label = r.label.rename (mapWire order) := by
  have wires : (appendedRecord order r).wires = r.wires.map (mapWire order) := by
    rw [← r.wires.take_append_drop r.numQuantum, List.map_append]
    rfl
  rw [Record.label, wires]
  rfl

/-- The records that the operations of another circuit get. -/
def appendedRecords (order : List WireId) (other : Circuit) : List Record :=
  other.topologicalOperations.map fun entry => appendedRecord order entry.2

theorem getElem?_appendedRecords {k : Nat} :
    (appendedRecords order other)[k]? = some r ↔ ∃ v s,
      other.topologicalOperations[k]? = some (v, s) ∧ appendedRecord order s = r := by
  rw [appendedRecords, List.getElem?_map, Option.map_eq_some_iff, Prod.exists]

theorem labels_appendedRecords (order : List WireId) (other : Circuit) :
    (appendedRecords order other).map Record.label =
      other.labels.map (Label.rename (mapWire order)) := by
  rw [appendedRecords, Circuit.labels, List.map_map, List.map_map]
  exact List.map_congr_left fun entry _ => label_appendedRecord order entry.2

section Additions

variable {line' : WireId → List VertexId} (layout' : other.Layout line')
  (extended : c.Extended (appendedRecords order other) c')
include extended

theorem Extended.operation_added {k : Nat}
    (listed : other.topologicalOperations[k]? = some (v, r)) :
    ∃ s, c'.records.Live (c.records.size + k) s ∧ s.operation = r.operation ∧
      s.quantumWires = r.quantumWires.map (mapWire order) ∧
      s.classicalWires = r.classicalWires.map (mapWire order) := by
  have bare := extended.added k _ (getElem?_appendedRecords.mpr ⟨v, r, listed, rfl⟩)
  obtain ⟨s, found, agree⟩ := Option.map_eq_some_iff.mp bare
  have wires := Record.wires_of_bare agree
  have count := Record.numQuantum_of_bare agree
  have operation := Record.operation_of_bare agree
  refine ⟨s, ⟨found, Record.removed_of_bare agree⟩, operation, ?_, ?_⟩
  · rw [Record.quantumWires, wires, count, ← quantumWires_appendedRecord]
    rfl
  · rw [Record.classicalWires, wires, count, ← classicalWires_appendedRecord]
    rfl

include layout' in
theorem Extended.occurrences_added (layout : c.Layout line) {slot : ParamSlot} {p : Param} :
    c'.params.holds slot p = true ↔ c.params.holds slot p = true ∨
      ∃ k v r, other.topologicalOperations[k]? = some (v, r) ∧ slot.vertex = c.records.size + k ∧
        other.params.holds ⟨v, slot.position⟩ p = true := by
  have live : ∀ {k v r}, other.topologicalOperations[k]? = some (v, r) →
      other.records.Live v r := fun listed =>
    (layout'.mem_topologicalOperations.mp (List.mem_of_getElem? listed)).1
  refine (extended.holds_iff layout).trans (or_congr_right ?_)
  constructor
  · intro given
    obtain ⟨k, r, found, number, symbolic, present⟩ := given
    obtain ⟨v, s, listed, rfl⟩ := getElem?_appendedRecords.mp found
    exact ⟨k, v, s, listed, number, layout'.holds_iff.mpr
      ⟨symbolic, s.bare, by rw [Records.bare?, (live listed).1]; rfl, (live listed).2, present⟩⟩
  · intro given
    obtain ⟨k, v, r, listed, number, holds⟩ := given
    obtain ⟨symbolic, s, same, -, present⟩ := layout'.holds_iff.mp holds
    rw [Records.bare?, (live listed).1] at same
    obtain rfl := Option.some.inj same
    exact ⟨k, _, getElem?_appendedRecords.mpr ⟨v, r, listed, rfl⟩, number, symbolic, present⟩

include layout' in
/-- What the additions of all operations of another circuit come to. -/
theorem Extended.appended (layout : c.Layout line) (matched : c.Matches other order) :
    c.Appended other order (c'.setGlobalPhase (c'.globalPhase + other.globalPhase)) where
  continued i w mapped := by
    have bounded := fun label member => (layout'.label_wires label member).2
    refine (extended.wireLabels w).trans ?_
    rw [labels_appendedRecords, matched.standingAt_rename bounded mapped,
      layout'.standingAt_labels]
  untouched w free := by
    have bounded := fun label member => (layout'.label_wires label member).2
    refine (extended.wireLabels w).trans ?_
    rw [labels_appendedRecords, matched.standingAt_eq_nil bounded free, List.append_nil]
  size := extended.size.trans (by rw [appendedRecords, List.length_map])
  kept := extended.old
  added _ _ _ listed := extended.operation_added listed
  numQubits := extended.numQubits
  numClbits := extended.numClbits
  numOperations := by
    refine (Extended.numOperations_eq extended).trans ?_
    rw [appendedRecords, List.length_map, layout'.length_topologicalOperations]
  globalPhase := by
    change c'.globalPhase + other.globalPhase = _
    rw [extended.globalPhase]
  occurrences _ _ := extended.occurrences_added layout' layout

end Additions

/-- A composition adds all operations of the other circuit and then its phase. -/
theorem Reachable.extended_append (reachable : c.Reachable) (reachable' : other.Reachable)
    {order? : Option (List WireId)} (run : (append other order?).run c = .ok () c') :
    c.Matches other (order?.getD (c.defaultOrder other)) ∧
      ∃ b, c.Extended (appendedRecords (order?.getD (c.defaultOrder other)) other) b ∧
        c' = b.setGlobalPhase (b.globalPhase + other.globalPhase) := by
  obtain ⟨line', layout'⟩ := reachable'.laidOut
  have valid := validateOrder_of_append run
  have matched := validateOrder_eq_ok_iff.mp valid
  have each := fun v r member => layout'.accepts_mapped reachable'.suited matched
    (v := v) (r := r) member
  obtain ⟨b, added⟩ := addAll_run each
  rw [append_run valid, EStateM.run_bind, added] at run
  refine ⟨matched, b, reachable.laidOut.extended each added, ?_⟩
  cases run
  rfl

/-- A circuit is appended exactly if the order maps its wires to distinct wires of the same kinds,
which the default order does if there are enough wires of each kind. Then its operations come behind
those on the wires that they are mapped to, at new numbers, and nothing else changes. -/
theorem append_appends (reachable : c.Reachable) (reachable' : other.Reachable)
    (order? : Option (List WireId)) :
    ((∃ c', (append other order?).run c = .ok () c') ↔
      c.Matches other (order?.getD (c.defaultOrder other))) ∧
    (c.Matches other (c.defaultOrder other) ↔
      other.numQubits ≤ c.numQubits ∧ other.numClbits ≤ c.numClbits) ∧
    ∀ c', (append other order?).run c = .ok () c' →
      c.Appended other (order?.getD (c.defaultOrder other)) c' := by
  obtain ⟨line, layout⟩ := reachable.laidOut
  obtain ⟨line', layout'⟩ := reachable'.laidOut
  refine ⟨⟨fun given => ?_, fun matched => ?_⟩, matches_defaultOrder_iff, fun c' run => ?_⟩
  · obtain ⟨c', run⟩ := given
    exact validateOrder_eq_ok_iff.mp (validateOrder_of_append run)
  · exact append_succeeds reachable' (validateOrder_eq_ok_iff.mpr matched)
  · obtain ⟨matched, b, extended, rfl⟩ := reachable.extended_append reachable' run
    exact Extended.appended layout' extended layout matched

/-- A measurement of the second qubit is appended with the qubits exchanged. -/
theorem measurement_appended_to_hadamard :
    let c := Change.after (blank 2 1) (.addOperation { element := .h } [0] [])
    let other := Change.after (blank 2 1) (.addOperation { element := .measure } [1] [2])
    ∃ c', (append other (some [1, 0, 2])).run c = .ok () c' ∧
      c'.wireLabels 0 = [⟨.h, [], [0]⟩, ⟨.measure, [], [0, 2]⟩] ∧ c'.numOperations = 2 := by
  intro c other
  have reachable : c.Reachable :=
    (Reachable.blank 2 1 Binary64.zero).change (.addOperation { element := .h } [0] [])
  have reachable' : other.Reachable :=
    (Reachable.blank 2 1 Binary64.zero).change (.addOperation { element := .measure } [1] [2])
  obtain ⟨accepted, -, result⟩ := append_appends reachable reachable' (some [1, 0, 2])
  have matched : c.Matches other [1, 0, 2] := validateOrder_eq_ok_iff.mp rfl
  obtain ⟨c', run⟩ := accepted.mpr matched
  have appended := result c' run
  have labels : c.wireLabels 0 = [⟨.h, [], [0]⟩] ∧ other.wireLabels 1 = [⟨.measure, [], [1, 2]⟩] :=
    ⟨rfl, rfl⟩
  have counts : c.numOperations = 1 ∧ other.numOperations = 1 := ⟨rfl, rfl⟩
  refine ⟨c', run, ?_, ?_⟩
  · rw [appended.continued 1 0 rfl, labels.1, labels.2]
    rfl
  · rw [appended.numOperations, counts.1, counts.2]

end Circuit

end CircuitDag
