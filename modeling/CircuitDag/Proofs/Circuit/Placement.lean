import CircuitDag.Proofs.Circuit.CycleCheck
import CircuitDag.Proofs.Circuit.Operands
import CircuitDag.Proofs.Circuit.Remainder

/-!
# Where an inserted operation stands

An insertion puts a vertex into one segment of each of its wires. Lines, ports, edges and the table
of parameters change there and nowhere else. To append an operation is to insert it before the
outputs of its wires.
-/

set_option autoImplicit false

namespace CircuitDag.Circuit

variable {c c' : Circuit} {line line' : WireId → List VertexId} {v x : VertexId} {w : WireId}
  {s : Record} {op : Operation} {qubits clbits : List WireId} {before : List VertexId} {side : Side}
  {gaps : List (VertexId × VertexId × WireId)}

/-- An operation has been put on its wires, on each of them right before a given vertex, and
nothing else has changed. The gaps are the segments of the wires that the new vertex, whose number
is the former number of records, has been put into. -/
structure Placed (c : Circuit) (op : Operation) (before : List VertexId)
    (qubits clbits : List WireId) (gaps : List (VertexId × VertexId × WireId))
    (c' : Circuit) : Prop where
  length : before.length = (qubits ++ clbits).length
  targets : gaps.map Prod.snd = before.zip (qubits ++ clbits)
  wires : ∀ a b w, (a, b, w) ∈ gaps → ∃ front back,
    c.wireVertices w = front ++ a :: b :: back ∧
      c'.wireVertices w = front ++ a :: c.records.size :: b :: back
  otherWires : ∀ w, w ∉ qubits ++ clbits → c'.wireVertices w = c.wireVertices w
  size : c'.records.size = c.records.size + 1
  record : c'.records.get? c.records.size = some
    { operation := op, wires := qubits ++ clbits, numQuantum := qubits.length
      inPorts := gaps.map fun (a, _, w) => some (c.records.portOn w a)
      outPorts := gaps.map fun (_, b, w) => some (c.records.portOn w b) }
  otherRecords : ∀ u, u ≠ c.records.size → c'.records.bare? u = c.records.bare? u
  ports : ∀ side j gap, gaps[j]? = some gap →
    c'.records.facing side (c.records.portOn gap.2.2 (segmentEnd side gap)) =
      some ⟨c.records.size, j⟩
  otherPorts : ∀ side port, port.vertex ≠ c.records.size →
    (∀ gap ∈ gaps, port ≠ c.records.portOn gap.2.2 (segmentEnd side gap)) →
      c'.records.facing side port = c.records.facing side port
  cut : gaps.Subperm c.graph.segments
  segments : c'.graph.segments.Perm (c.graph.segments.diff gaps ++
    gaps.flatMap fun (a, b, w) => [(a, c.records.size, w), (c.records.size, b, w)])
  occurrences : ∀ slot p, c'.params.holds slot p = true ↔ c.params.holds slot p = true ∨
    (slot.vertex = c.records.size ∧ p.isSymbolic = true ∧ op.params[slot.position]? = some p)
  frame : c' = { c with records := c'.records, graph := c'.graph, params := c'.params }

/-! ## Ports and edges at the gaps -/

theorem portOn_of_fresh (fresh : ∀ w, v ∉ line w)
    (same : ∀ u, u ≠ v → c'.records.bare? u = c.records.bare? u) (member : x ∈ line w) :
    c'.records.portOn w x = c.records.portOn w x :=
  Records.portOn_eq_of_bare? (same x fun equal => fresh w (equal ▸ member))

theorem portOn_gap (unique : s.wires.Nodup) (found : c'.records.get? v = some s)
    (wires : s.wires = gaps.map (·.2.2)) {j : Nat} {gap : VertexId × VertexId × WireId}
    (entry : gaps[j]? = some gap) : c'.records.portOn gap.2.2 v = ⟨v, j⟩ := by
  refine Records.portOn_of_getElem? found unique ?_
  rw [wires, List.getElem?_map, entry]
  rfl

theorem mem_ways {a b : VertexId} :
    (a, b, w) ∈ (gaps.flatMap fun (a, b, w) => [(a, v, w), (v, b, w)]) ↔
      (a = v ∧ ∃ a', (a', b, w) ∈ gaps) ∨ (b = v ∧ ∃ b', (a, b', w) ∈ gaps) := by
  simp only [List.mem_flatMap, List.mem_cons, List.not_mem_nil, or_false, Prod.exists,
    Prod.mk.injEq]
  constructor
  · rintro ⟨a', b', _, inside, ⟨rfl, rfl, rfl⟩ | ⟨rfl, rfl, rfl⟩⟩
    · exact .inr ⟨rfl, b', inside⟩
    · exact .inl ⟨rfl, a', inside⟩
  · rintro (⟨rfl, a', inside⟩ | ⟨rfl, b', inside⟩)
    · exact ⟨a', b, w, inside, .inr ⟨rfl, rfl, rfl⟩⟩
    · exact ⟨a, b', w, inside, .inl ⟨rfl, rfl, rfl⟩⟩

theorem nodup_ways (spliced : Spliced line line' v gaps)
    (fresh : ∀ w, v ∉ line w) :
    (gaps.flatMap fun (a, b, w) => [(a, v, w), (v, b, w)]).Nodup := by
  refine List.nodup_flatMap.mpr ⟨?_, ?_⟩
  · rintro ⟨a, b, w⟩ inside
    have other : a ≠ v := fun same => fresh w (same ▸ (spliced.adjacent inside).mem_left)
    simp [other]
  · refine (List.pairwise_map.mp spliced.nodup).imp fun {gap gap'} different => ?_
    intro x left right
    simp only [List.mem_cons, List.not_mem_nil, or_false] at left right
    rcases left with rfl | rfl <;> rcases right with equal | equal <;>
      exact different (congrArg (·.2.2) equal)

section Gaps

variable (layout : c.Layout line) (layout' : c'.Layout line')
  (spliced : Spliced line line' v gaps) (fresh : ∀ w, v ∉ line w)

include layout' spliced fresh

include layout in
/-- The edges at a gap are replaced by two edges each. -/
theorem Layout.segments_spliced :
    gaps.Subperm c.graph.segments ∧ c'.graph.segments.Perm (c.graph.segments.diff gaps ++
      gaps.flatMap fun (a, b, w) => [(a, v, w), (v, b, w)]) := by
  have cut : gaps ⊆ c.graph.segments := by
    rintro ⟨a, b, w⟩ inside
    exact (layout.traced.mem_iff a b w).mpr (spliced.adjacent inside)
  refine ⟨List.subperm_of_subset (.of_map _ spliced.nodup) cut,
    (List.perm_ext_iff_of_nodup layout'.traced.nodup ?_).mpr ?_⟩
  · refine List.nodup_append.mpr ⟨layout.traced.nodup.diff, nodup_ways spliced fresh, ?_⟩
    rintro ⟨x, y, w⟩ old _ new rfl
    have old := (layout.traced.mem_iff x y w).mp (List.diff_subset _ _ old)
    rcases mem_ways.mp new with ⟨rfl, -⟩ | ⟨rfl, -⟩
    · exact fresh w old.mem_left
    · exact fresh w old.mem_right
  · rintro ⟨x, y, w⟩
    rw [layout'.traced.mem_iff, spliced.adjacent_iff fun w => (layout.strung w).nodup,
      List.mem_append, layout.traced.nodup.mem_sdiff_iff, layout.traced.mem_iff, mem_ways]
    exact or_assoc.symm.trans or_comm

variable (same : ∀ u, u ≠ v → c'.records.bare? u = c.records.bare? u)

include same

/-- The two ends of a gap and the vertex in it face each other. -/
theorem Layout.facing_gap {gap : VertexId × VertexId × WireId} (member : gap ∈ gaps)
    (side : Side) :
    c'.records.facing side (c.records.portOn gap.2.2 (segmentEnd side gap)) =
        some (c'.records.portOn gap.2.2 v) ∧
      c'.records.facing side (c'.records.portOn gap.2.2 v) =
        some (c.records.portOn gap.2.2 (segmentEnd side.opposite gap)) := by
  obtain ⟨a, b, w⟩ := gap
  obtain ⟨front, back, shape, -⟩ := spliced.inside a b w member
  have onLine : ∀ side, segmentEnd side (a, b, w) ∈ line w := by
    intro side
    cases side <;> simp [segmentEnd, shape]
  have portSame := fun side => portOn_of_fresh fresh same (onLine side)
  obtain ⟨toward, away⟩ := spliced.beside member side
  constructor
  · rw [← portSame side]
    exact layout'.facing_of_beside toward
  · rw [← portSame side.opposite]
    exact layout'.facing_of_beside away

/-- The ports of the vertex in the gaps lead to the ends of the gaps. -/
theorem Layout.ports_spliced (found : c'.records.get? v = some s)
    (wires : s.wires = gaps.map (·.2.2)) (side : Side) :
    s.ports side = gaps.map fun gap =>
      some (c.records.portOn gap.2.2 (segmentEnd side.opposite gap)) := by
  have length := layout'.shaped.length_ports v s found side
  rw [wires, List.length_map] at length
  refine List.ext_getElem (by rw [length, List.length_map]) fun j left right => ?_
  have entry : gaps[j]? = some gaps[j] := List.getElem?_eq_getElem (length ▸ left)
  have led := (layout'.facing_gap spliced fresh same (List.mem_of_getElem? entry) side).2
  rw [portOn_gap (wires ▸ spliced.nodup) found wires entry] at led
  simp only [Records.facing, Records.port?, found, Option.bind_some, Record.port?,
    List.getElem?_eq_getElem left, Option.join_some] at led
  rw [led, List.getElem_map]

include layout in
theorem Layout.facing_of_apart {port : Port} (other : port.vertex ≠ v)
    (apart : ∀ gap ∈ gaps, port ≠ c.records.portOn gap.2.2 (segmentEnd side gap)) :
    c'.records.facing side port = c.records.facing side port := by
  refine layout.facing_congr layout' (same port.vertex other) fun w member onWire => ?_
  rw [onWire]
  refine layout.facing_eq layout'
    (fun x => portOn_of_fresh fresh same) member ?_ ?_
  · rw [spliced.tip?_eq]
    exact id
  · intro x beside
    refine spliced.beside_of_apart (fun w => (layout.strung w).nodup) beside ?_
    rintro gap inside rfl equal
    exact apart gap inside (onWire.trans (equal ▸ rfl))

end Gaps

/-! ## Appending and inserting -/

theorem place_frame (c : Circuit) (op : Operation) (qubits clbits : List WireId)
    (successors : List Port) :
    let c' := c.place op qubits clbits successors
    c' = { c with records := c'.records, graph := c'.graph, params := c'.params } ∧
      c'.params = c.params.registerAll c.records.size op.params := by
  have rewired := rewired_spliceAll c.records.size
    (((qubits ++ clbits).zip successors).zipIdx) (c.pushVertex op qubits clbits)
  refine ⟨congrArg (fun d : Circuit =>
    { d with params := (c.place op qubits clbits successors).params }) rewired.frame, ?_⟩
  change ParamTable.registerAll _ _ _ = _
  rw [rewired.params_eq]
  rfl

/-- What an insertion makes of a circuit, told without lines. -/
theorem Grown.placed (layout : c.Layout line) (length : before.length = (qubits ++ clbits).length)
    {successors : List Port} (grown : c.Grown line op qubits clbits successors c' line')
    (placed : c' = c.place op qubits clbits successors)
    (shape : gaps.map Prod.snd = before.zip (qubits ++ clbits))
    (spliced : Spliced line line' c.records.size gaps) :
    c.Placed op before qubits clbits gaps c' := by
  have wires := wires_of_gaps shape length
  have fresh : ∀ w, c.records.size ∉ line w := fun w member => layout.ne_size member rfl
  have same : ∀ u, u ≠ c.records.size → c'.records.bare? u = c.records.bare? u :=
    fun u => grown.bare?_of_ne
  obtain ⟨s, found, agree⟩ :=
    Records.exists_get?_of_bare? grown.bare (Records.get?_push_size c.records _)
  have wiresSame : s.wires = gaps.map (·.2.2) := (Record.wires_of_bare agree).trans wires.symm
  obtain ⟨frame, params⟩ := placed ▸ place_frame c op qubits clbits successors
  refine ⟨length, shape, fun a b w member => ?_, fun w outside => ?_, ?_, ?_, same,
    fun side j gap entry => ?_, fun side port other apart => ?_, ?_, ?_, fun slot p => ?_, frame⟩
  · rw [layout.wireVertices_eq, grown.layout.wireVertices_eq]
    exact spliced.inside a b w member
  · rw [layout.wireVertices_eq, grown.layout.wireVertices_eq, grown.others w outside]
  · rw [Records.size_of_bare? grown.bare, Records.size_push]
  · have ports := grown.layout.ports_spliced spliced fresh same found wiresSame
    rw [found, Option.some.injEq]
    refine Record.eq_of_bare agree fun side => (ports side).trans ?_
    cases side <;> rfl
  · rw [← portOn_gap (wiresSame ▸ spliced.nodup) found wiresSame entry]
    exact (grown.layout.facing_gap spliced fresh same (List.mem_of_getElem? entry)
      side).1
  · exact layout.facing_of_apart grown.layout spliced fresh same other apart
  · exact (layout.segments_spliced grown.layout spliced fresh).1
  · exact (layout.segments_spliced grown.layout spliced fresh).2
  · rw [params, layout.coherent.holds_registerAll]

/-- An operation that is inserted stands right before each of the given vertices. -/
theorem Layout.insertOperation_placed (layout : c.Layout line)
    (run : (Circuit.insertOperation op before qubits clbits).run c = .ok v c') :
    v = c.records.size ∧ ∃ gaps, c.Placed op before qubits clbits gaps c' := by
  obtain ⟨rfl, accepts, length, points, line', found, placed, grown⟩ :=
    layout.grown_of_insertOperation run
  obtain ⟨gaps, shape, spliced⟩ := layout.spliced accepts length found grown
  exact ⟨rfl, gaps, grown.placed layout length placed shape spliced⟩

/-- The outputs of wires can be inserted before, and no path leads from one of them to a vertex
before another one. -/
theorem Layout.insertionPoints_outputs (layout : c.Layout line) {wires : List WireId}
    (all : ∀ w ∈ wires, ∃ v, c.output? w = some v) :
    ∃ outs points, wires.mapM c.output? = some outs ∧ outs.length = wires.length ∧
      (outs.zip wires).mapM (fun (v, w) => c.insertionPoint v w) = .ok points ∧
      points.map (·.successor) = c.outputPorts wires ∧
      ∀ p ∈ points, ∃ w, c.output? w = some p.successor.vertex ∧
        Adjacent (line w) p.predecessor p.successor.vertex := by
  induction wires with
  | nil => exact ⟨[], [], rfl, rfl, rfl, rfl, nofun⟩
  | cons w wires ih =>
      rw [List.forall_mem_cons] at all
      obtain ⟨⟨o, output⟩, rest⟩ := all
      obtain ⟨outs, points, outputs, length, found, successors, ends⟩ := ih rest
      obtain ⟨tip, -, port⟩ := layout.output_spec output
      obtain ⟨r, live, element, wire⟩ := layout.live_of_tip? tip
      obtain ⟨point, first⟩ := layout.exists_insertionPoint live (w := w)
        (by rw [element]; exact nofun) (by rw [wire]; exact List.mem_singleton_self w)
      obtain ⟨a, adjacent, rfl⟩ := layout.insertionPoint_spec first
      refine ⟨o :: outs, ⟨c.records.portOn w o, a⟩ :: points, ?_, ?_, ?_, ?_, ?_⟩
      · exact mapM_eq_some_iff.mpr (.cons output (mapM_eq_some_iff.mp outputs))
      · rw [List.length_cons, length, List.length_cons]
      · exact mapM_eq_ok_iff.mpr (.cons first (mapM_eq_ok_iff.mp found))
      · rw [List.map_cons, successors, ← port]
        simp [outputPorts, output]
      · exact List.forall_mem_cons.mpr ⟨⟨w, output, adjacent⟩, ends⟩

/-- An insertion before the outputs is not refused and makes what appending makes. -/
theorem Layout.insertOperation_outputs (layout : c.Layout line)
    (run : (Circuit.addOperation op qubits clbits).run c = .ok v c') :
    ∃ outs, (qubits ++ clbits).mapM c.output? = some outs ∧
      (Circuit.insertOperation op outs qubits clbits).run c = .ok v c' := by
  obtain ⟨accepts, rfl, placed⟩ := addOperation_eq_ok_iff.mp run
  obtain ⟨outs, points, outputs, length, found, successors, ends⟩ :=
    layout.insertionPoints_outputs (layout.outputs_of_accepts accepts)
  -- Nothing leads on from an output, so no path from one of them closes a cycle.
  have open_ : c.closesCycle points = false := by
    simp only [closesCycle, List.any_eq_false, Bool.not_eq_true]
    intro p left q right
    obtain ⟨w, output, -⟩ := ends p left
    obtain ⟨w', -, adjacent⟩ := ends q right
    refine Bool.eq_false_of_not_eq_true fun path => ?_
    exact layout.not_path_of_output output adjacent (Graph.hasPath_eq_true_iff.mp path)
  exact ⟨outs, outputs, insertOperation_eq_ok_iff.mpr
    ⟨accepts, length, points, found, open_, rfl, successors ▸ placed⟩⟩

/-- An insertion that succeeds puts the operation right before each of the given vertices and
changes nothing else. To append an operation is to insert it before the outputs of its wires, which
is never refused as a cycle. -/
theorem insertion_changes_one_place (reachable : c.Reachable) :
    (∀ op before qubits clbits v c',
      (insertOperation op before qubits clbits).run c = .ok v c' →
        v = c.records.size ∧ ∃ gaps, c.Placed op before qubits clbits gaps c') ∧
    ∀ op qubits clbits v c', (addOperation op qubits clbits).run c = .ok v c' →
      ∃ outs, (qubits ++ clbits).mapM c.output? = some outs ∧
        (insertOperation op outs qubits clbits).run c = .ok v c' := by
  obtain ⟨line, layout⟩ := reachable.laidOut
  exact ⟨fun _ _ _ _ _ _ run => layout.insertOperation_placed run,
    fun _ _ _ _ _ run => layout.insertOperation_outputs run⟩

/-- Two operations follow each other on both their wires, and a third one goes between them. -/
theorem insertion_between_neighbors :
    let c := (Change.addOperation { element := .cx } [0, 1] []).after singleCX
    (∃ c' gaps, (insertOperation { element := .cx } [5, 5] [1, 0] []).run c = .ok 6 c' ∧
      c.Placed { element := .cx } [5, 5] [1, 0] [] gaps c') ∧
    ∃ outs c', [1, 0].mapM c.output? = some outs ∧
      (insertOperation { element := .cx } outs [1, 0] []).run c = .ok 6 c' := by
  intro c
  have reached : c.Reachable := ((Reachable.blank 2 0 Binary64.zero).change _).change _
  obtain ⟨placed, appended⟩ := insertion_changes_one_place reached
  constructor
  · obtain ⟨-, gaps, holds⟩ := placed { element := .cx } [5, 5] [1, 0] [] 6 _ rfl
    exact ⟨_, gaps, rfl, holds⟩
  · obtain ⟨outs, outputs, run⟩ := appended { element := .cx } [1, 0] [] 6 _ rfl
    exact ⟨outs, _, outputs, run⟩

end CircuitDag.Circuit
