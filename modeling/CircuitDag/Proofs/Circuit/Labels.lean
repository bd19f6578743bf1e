import CircuitDag.Proofs.Circuit.Meaning
import CircuitDag.Proofs.Circuit.Reachable
import CircuitDag.Proofs.Rearrangement

/-!
# Labels along the wires

The label of an operation is its element with its parameters and wires. The topological listing has
on every wire the labels of that wire, and an appended operation comes last on each of its wires.
-/

set_option autoImplicit false

namespace CircuitDag

/-- An operation on its wires, without its number and its neighbours. -/
structure Label where
  element : Element
  params : List Param
  wires : List WireId
deriving DecidableEq

def Operation.label (op : Operation) (wires : List WireId) : Label := ⟨op.element, op.params, wires⟩

def Record.label (r : Record) : Label := r.operation.label r.wires

namespace Circuit

variable {c c' : Circuit} {line line' : WireId → List VertexId} {v : VertexId} {w : WireId}
  {r : Record} {op : Operation} {qubits clbits : List WireId}

/-- The label of a vertex; anchors have none. -/
def label? (c : Circuit) (v : VertexId) : Option Label :=
  match c.records.get? v with
  | some r => if r.isAnchor then none else some r.label
  | none => none

/-- The labels on a wire, from its input to its output. -/
def wireLabels (c : Circuit) (w : WireId) : List Label := (c.wireVertices w).filterMap c.label?

/-- The labels of all operations, in the order of the topological listing. -/
def labels (c : Circuit) : List Label := c.topologicalOperations.map fun (_, r) => r.label

theorem label?_eq (found : c.records.get? v = some r) :
    c.label? v = if r.isAnchor then none else some r.label := by
  rw [label?, found]

theorem label?_eq_some_iff (found : c.records.get? v = some r) {a : Label} :
    c.label? v = some a ↔ r.isAnchor = false ∧ r.label = a := by
  rw [label?_eq found]
  cases r.isAnchor <;> simp

theorem label?_eq_none_iff (found : c.records.get? v = some r) :
    c.label? v = none ↔ r.isAnchor = true := by
  rw [label?_eq found]
  cases r.isAnchor <;> simp

/-- A vertex acts as its label tells. -/
theorem vertex_eq_elim {M : Type*} [Monoid M] (I : Interpretation M) (c : Circuit)
    (v : VertexId) : I.vertex c v =
      (c.label? v).elim 1 fun label => I.act label.element label.params label.wires := by
  rw [Interpretation.vertex, label?]
  cases c.records.get? v with
  | none => rfl
  | some r =>
      simp only
      split <;> rfl

theorem label?_of_bare {rs : Records} (same : c.records.bare? v = rs.bare? v) {s : Record}
    (found : rs.get? v = some s) : c.label? v = if s.isAnchor then none else some s.label := by
  rw [Records.bare?, Records.bare?, found, Option.map_some, Option.map_eq_some_iff] at same
  obtain ⟨r, found', agree⟩ := same
  have element := Record.element_of_bare agree
  rw [label?_eq found', Record.isAnchor, Record.isAnchor, Record.label, Record.label, element,
    Record.operation_of_bare agree, Record.wires_of_bare agree]

theorem label?_congr (same : c'.records.bare? v = c.records.bare? v) :
    c'.label? v = c.label? v := by
  cases found : c.records.get? v with
  | some r => rw [label?_of_bare same found, label?_eq found]
  | none =>
      rw [Records.bare?, Records.bare?, found, Option.map_none, Option.map_eq_none_iff] at same
      rw [label?, label?, found, same]

theorem labels_eq_filterMap (c : Circuit) :
    c.labels = c.topologicalVertices.filterMap c.label? := by
  rw [labels, topologicalOperations, Records.select]
  induction c.topologicalVertices with
  | nil => rfl
  | cons v vs ih =>
      rw [List.filterMap_cons, List.filterMap_cons, ← ih]
      cases found : c.records.get? v with
      | none => simp [label?, found]
      | some r => cases anchor : r.isAnchor <;> simp [label?_eq found, anchor]

theorem Layout.mem_wires_iff (layout : c.Layout line) {x : WireId} (stands : v ∈ line x)
    {label : Label} (labelled : c.label? v = some label) : w ∈ label.wires ↔ v ∈ line w := by
  obtain ⟨r, live, -⟩ := layout.carries stands
  rw [label?_eq live.1] at labelled
  split at labelled
  · cases labelled
  · cases labelled
    rw [layout.mem_line_iff]
    constructor
    · exact fun carried => ⟨r, live, carried⟩
    · intro given
      obtain ⟨s, live', carried⟩ := given
      rw [live.unique live']
      exact carried

/-- The part of an order that lies on a line of it is that line. -/
theorem filter_mem_of_sublist {l order : List VertexId} (unique : order.Nodup)
    (included : l.Sublist order) : order.filter (· ∈ l) = l := by
  have kept : l.Sublist (order.filter (· ∈ l)) :=
    sublist_filter included fun x member => decide_eq_true member
  refine (kept.eq_of_length_le ?_).symm
  refine ((unique.filter _).subperm fun x member => ?_).length_le
  exact of_decide_eq_true (List.mem_filter.mp member).2

/-- In an order that agrees with the lines, the labels have on a wire what the wire has. -/
theorem Layout.standingAt_filterMap (layout : c.Layout line) {order : List VertexId}
    (linear : Linearizes line order) (w : WireId) :
    standingAt Label.wires w (order.filterMap c.label?) = c.wireLabels w := by
  rw [wireLabels, layout.wireVertices_eq, standingAt, List.filter_filterMap,
    ← filter_mem_of_sublist linear.nodup (linear.sublist w), List.filterMap_filter]
  refine List.filterMap_congr fun v member => ?_
  obtain ⟨x, stands⟩ := (linear.mem_iff v).mp member
  cases labelled : c.label? v with
  | none => simp
  | some label => simp [Option.filter, layout.mem_wires_iff stands labelled]

theorem Layout.standingAt_labels (layout : c.Layout line) (w : WireId) :
    standingAt Label.wires w c.labels = c.wireLabels w := by
  rw [labels_eq_filterMap]
  exact layout.standingAt_filterMap layout.linearizes w

/-- All orders that agree with the lines list the operations up to swaps of independent ones. -/
theorem Layout.rearranged_of_linearizes (layout : c.Layout line) {order : List VertexId}
    (linear : Linearizes line order) :
    Rearranged Label.wires c.labels (order.filterMap c.label?) := by
  have somewhere : ∀ {order : List VertexId}, Linearizes line order →
      ∀ label ∈ order.filterMap c.label?, label.wires ≠ [] := by
    intro order linear label member
    obtain ⟨v, listed, labelled⟩ := List.mem_filterMap.mp member
    obtain ⟨x, stands⟩ := (linear.mem_iff v).mp listed
    exact List.ne_nil_of_mem ((layout.mem_wires_iff stands labelled).mpr stands)
  rw [labels_eq_filterMap]
  apply rearranged_of_standingAt_eq (somewhere layout.linearizes) (somewhere linear)
  intro w
  rw [layout.standingAt_filterMap layout.linearizes, layout.standingAt_filterMap linear]

/-- The label of an appended operation comes last on its wires, and no other labels change. -/
theorem Layout.wireLabels_addOperation (layout : c.Layout line)
    (accepts : c.Accepts op qubits clbits)
    (grown : c.Grown line op qubits clbits (c.outputPorts (qubits ++ clbits)) c' line')
    (w : WireId) : c'.wireLabels w =
      c.wireLabels w ++ standingAt Label.wires w [op.label (qubits ++ clbits)] := by
  have old : ∀ x ∈ line w, c'.label? x = c.label? x := by
    intro x member
    obtain ⟨r, live, -⟩ := layout.carries member
    have found : (c.records.push (Record.unwired op qubits clbits)).get? x = some r := by
      rw [Records.get?_push_of_lt _ (layout.lt_size member)]
      exact live.1
    rw [label?_of_bare (congrFun grown.bare x) found, label?_eq live.1]
  have new : c'.label? c.records.size = some (op.label (qubits ++ clbits)) := by
    have operation : (Record.unwired op qubits clbits).isAnchor = false := accepts.operation
    rw [label?_of_bare (congrFun grown.bare _) (Records.get?_push_size ..), operation]
    rfl
  rw [wireLabels, wireLabels, layout.wireVertices_eq, grown.layout.wireVertices_eq]
  by_cases member : w ∈ qubits ++ clbits
  · obtain ⟨front, o, output, shape, shape'⟩ := layout.appended accepts grown member
    obtain ⟨r, live, element, -⟩ := layout.live_of_tip? (layout.output_spec output).1
    have blank : c.label? o = none := by
      rw [label?_eq live.1, Record.isAnchor, element]
      rfl
    rw [shape, List.forall_mem_append, List.forall_mem_singleton] at old
    obtain ⟨before, last⟩ := old
    have here : w ∈ (op.label (qubits ++ clbits)).wires := member
    rw [shape, shape', List.filterMap_append, List.filterMap_append, List.filterMap_congr before,
      standingAt_cons_of_mem here]
    simp [new, last, blank, standingAt]
  · have elsewhere : w ∉ (op.label (qubits ++ clbits)).wires := member
    rw [grown.others w member, List.filterMap_congr old, standingAt_cons_of_notMem elsewhere]
    simp [standingAt]

/-! ## Compaction -/

theorem label?_newNumber (live : c.records.Live v r) :
    c.compacted.label? (c.newNumber v) = c.label? v := by
  rw [label?_eq live.1, label?_eq (compacted_live live).1]
  rfl

theorem Layout.wireLabels_compacted (layout : c.Layout line) (w : WireId) :
    c.compacted.wireLabels w = c.wireLabels w := by
  rw [wireLabels, wireLabels, layout.compact.wireVertices_eq, layout.wireVertices_eq,
    List.filterMap_map]
  refine List.filterMap_congr fun v member => ?_
  obtain ⟨r, live⟩ := layout.toThreaded.live member
  exact label?_newNumber live

/-! ## Blank circuits -/

theorem blank_spec (numQubits numClbits : Nat) (phase : Binary64) :
    (blank numQubits numClbits phase).numQubits = numQubits ∧
      (blank numQubits numClbits phase).numClbits = numClbits ∧
      ∀ v r, (blank numQubits numClbits phase).records.Live v r → r.isAnchor = true := by
  rw [blank_eq]
  refine openWires_keeps (fun c => c.numQubits = numQubits ∧ c.numClbits = numClbits ∧
    ∀ v r, c.records.Live v r → r.isAnchor = true) ?_ ?_ ⟨rfl, rfl, fun v r live => ?_⟩ _
  · rintro c side w ⟨rfl, rfl, anchors⟩
    obtain ⟨records, -, -, -, numQubits, numClbits, -⟩ := pushEnd_spec c side w
    refine ⟨numQubits, numClbits, fun v r live => ?_⟩
    rw [records] at live
    rcases Records.Live.of_push live with old | ⟨-, rfl⟩
    · exact anchors v r old
    · rw [Record.isAnchor, element_anchorRecord]
      cases side <;> rfl
  · rintro c source target w ⟨numQubits, numClbits, anchors⟩
    refine ⟨numQubits, numClbits, fun v r live => ?_⟩
    obtain ⟨s, live', agree⟩ :=
      Records.exists_live_of_bare? (rewired_connect c source target w).bare.symm live
    rw [Record.isAnchor, ← Record.element_of_bare agree]
    exact anchors v s live'
  · simp [Records.Live, Records.get?, Records.empty] at live

theorem labels_blank (numQubits numClbits : Nat) (phase : Binary64) :
    (blank numQubits numClbits phase).labels = [] := by
  obtain ⟨-, -, anchors⟩ := blank_spec numQubits numClbits phase
  obtain ⟨line, layout⟩ := laidOut_blank numQubits numClbits phase
  apply List.eq_nil_iff_forall_not_mem.mpr
  intro label member
  obtain ⟨⟨v, r⟩, listed, rfl⟩ := List.mem_map.mp member
  obtain ⟨live, operation⟩ := layout.mem_topologicalOperations.mp listed
  exact Bool.false_ne_true (operation.symm.trans (anchors v r live))

theorem wireLabels_blank (numQubits numClbits : Nat) (phase : Binary64) (w : WireId) :
    (blank numQubits numClbits phase).wireLabels w = [] := by
  obtain ⟨line, layout⟩ := laidOut_blank numQubits numClbits phase
  rw [wireLabels, layout.wireVertices_eq, List.filterMap_eq_nil_iff]
  intro v member
  obtain ⟨r, live, -⟩ := layout.carries member
  rw [label?_eq live.1, if_pos ((blank_spec numQubits numClbits phase).2.2 v r live)]

end Circuit

end CircuitDag
