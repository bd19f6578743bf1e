import CircuitDag.Proofs.Circuit.Growth
import CircuitDag.Proofs.Graph.Search
import CircuitDag.Proofs.Records.Walk

/-!
# Appending and inserting operations

Outputs lead nowhere, so an operation can always be put before the outputs of its wires. Elsewhere
the search for paths finds out whether it can.
-/

set_option autoImplicit false

namespace CircuitDag.Circuit

variable {c : Circuit} {line : WireId → List VertexId} {u v x : VertexId} {w : WireId}
  {op : Operation} {qubits clbits : List WireId} {before : List VertexId}

theorem require_run {α : Type} (checked : Except ValidationError α) (c : Circuit) :
    (require checked).run c = match checked with
      | .ok a => .ok a c
      | .error cause => .error (.validation cause) c := by
  cases checked <;> rfl

theorem liftResult_run {α : Type} (result : Except CircuitError α) (c : Circuit) :
    (liftResult result).run c = match result with
      | .ok a => .ok a c
      | .error cause => .error cause c := by
  cases result <;> rfl

theorem addOperation_run (op : Operation) (qubits clbits : List WireId) (c : Circuit) :
    (addOperation op qubits clbits).run c = match c.validate op qubits clbits with
      | .ok () => .ok c.records.size
          (c.place op qubits clbits (c.outputPorts (qubits ++ clbits)))
      | .error cause => .error (.validation cause) c := by
  simp only [addOperation, EStateM.run_bind, EStateM.run_get, require_run]
  cases c.validate op qubits clbits <;> rfl

theorem insertOperation_run (op : Operation) (before : List VertexId)
    (qubits clbits : List WireId) (c : Circuit) :
    (insertOperation op before qubits clbits).run c = match c.validate op qubits clbits with
      | .error cause => .error (.validation cause) c
      | .ok () =>
          if before.length ≠ (qubits ++ clbits).length then
            .error (.validation (.arityMismatch op.element.name "insertion points"
              (qubits ++ clbits).length before.length)) c
          else match (before.zip (qubits ++ clbits)).mapM fun (v, w) => c.insertionPoint v w with
            | .error cause => .error cause c
            | .ok points =>
                if c.closesCycle points then .error (.validation (.wouldCreateCycle before)) c
                else .ok c.records.size
                  (c.place op qubits clbits (points.map (·.successor))) := by
  simp only [insertOperation, EStateM.run_bind, EStateM.run_get, require_run]
  cases c.validate op qubits clbits with
  | error cause => rfl
  | ok _ =>
      simp only
      split
      · rfl
      · simp only [EStateM.run_bind, liftResult_run]
        cases (before.zip (qubits ++ clbits)).mapM fun (v, w) => c.insertionPoint v w with
        | error cause => rfl
        | ok points =>
            simp only
            split <;> rfl

theorem addOperation_eq_ok_iff {c' : Circuit} :
    (addOperation op qubits clbits).run c = .ok v c' ↔ c.Accepts op qubits clbits ∧
      v = c.records.size ∧ c' = c.place op qubits clbits (c.outputPorts (qubits ++ clbits)) := by
  rw [addOperation_run, ← validate_eq_ok_iff]
  cases c.validate op qubits clbits with
  | error cause => simp
  | ok _ => simp [eq_comm]

theorem insertOperation_eq_ok_iff {c' : Circuit} :
    (insertOperation op before qubits clbits).run c = .ok v c' ↔ c.Accepts op qubits clbits ∧
      before.length = (qubits ++ clbits).length ∧ ∃ points,
        (before.zip (qubits ++ clbits)).mapM (fun (v, w) => c.insertionPoint v w) = .ok points ∧
        c.closesCycle points = false ∧ v = c.records.size ∧
        c' = c.place op qubits clbits (points.map (·.successor)) := by
  rw [insertOperation_run, ← validate_eq_ok_iff]
  cases c.validate op qubits clbits with
  | error cause => simp
  | ok _ =>
      simp only [true_and]
      by_cases length : before.length = (qubits ++ clbits).length
      · simp only [length, ne_eq, not_true_eq_false, ↓reduceIte, true_and]
        cases (before.zip (qubits ++ clbits)).mapM fun (v, w) => c.insertionPoint v w with
        | error cause => simp
        | ok points =>
            simp only [Except.ok.injEq, exists_eq_left']
            cases c.closesCycle points with
            | true => simp
            | false => simp [eq_comm]
      · simp only [length, ne_eq, not_false_eq_true, ↓reduceIte, false_and, iff_false]
        exact nofun

/-! ## Appending -/

theorem Layout.not_joins_of_tip? (layout : c.Layout line)
    (tip : tip? (line w) .outgoing = some v) : ¬ c.graph.Joins v x := by
  intro joins
  obtain ⟨y, adjacent⟩ := layout.joins_iff.mp joins
  obtain ⟨r, live, -, wires⟩ := layout.live_of_tip? tip
  obtain ⟨s, live', carried⟩ := layout.carries adjacent.mem_left
  obtain rfl := live.unique live'
  obtain rfl : y = w := by simpa [wires] using carried
  exact adjacent.getLast?_ne (layout.strung y).nodup tip

/-- The output of a wire has a predecessor on the wire, and its port there is the first. -/
theorem Layout.output_spec (layout : c.Layout line) (output : c.output? w = some v) :
    tip? (line w) .outgoing = some v ∧ (∃ a, Adjacent (line w) a v) ∧
      (⟨v, 0⟩ : Port) = c.records.portOn w v := by
  have tip : tip? (line w) .outgoing = some v := (layout.tips .outgoing w).trans output
  obtain ⟨r, live, element, wires⟩ := layout.live_of_tip? tip
  refine ⟨tip, ?_, ?_⟩
  · refine layout.exists_beside live (mem_of_tip? tip) .incoming ?_
    rw [element]
    exact nofun
  · rw [Records.portOn_eq live.1, wires, List.idxOf_cons_self]

theorem Seated.exists_output (seated : c.Seated line) (bound : w < c.numWires) :
    ∃ v, c.output? w = some v := by
  rw [← seated.sizes .outgoing] at bound
  exact ⟨_, Array.getElem?_eq_getElem bound⟩

theorem outputPorts_eq {wires : List WireId} (all : ∀ w ∈ wires, ∃ v, c.output? w = some v) :
    (c.outputPorts wires).length = wires.length ∧
      ∀ w p, (w, p) ∈ wires.zip (c.outputPorts wires) → ∃ v, c.output? w = some v ∧ p = ⟨v, 0⟩ := by
  induction wires with
  | nil => simp [outputPorts]
  | cons x wires ih =>
      rw [List.forall_mem_cons] at all
      obtain ⟨⟨v, output⟩, rest⟩ := all
      obtain ⟨length, members⟩ := ih rest
      have shape : c.outputPorts (x :: wires) = ⟨v, 0⟩ :: c.outputPorts wires := by
        simp [outputPorts, output]
      rw [shape]
      refine ⟨by simp [length], fun w p member => ?_⟩
      rcases List.mem_cons.mp member with equal | member
      · obtain ⟨rfl, rfl⟩ := Prod.mk.inj equal
        exact ⟨v, output, rfl⟩
      · exact members w p member

theorem Layout.outputs_of_accepts (layout : c.Layout line)
    (accepts : c.Accepts op qubits clbits) : ∀ w ∈ qubits ++ clbits, ∃ v, c.output? w = some v :=
  fun _ member => layout.exists_output (accepts.lt_numWires member)

/-- No path leads from an output to a vertex that has a successor. -/
theorem Layout.not_path_of_output (layout : c.Layout line) {w' : WireId} {a : VertexId}
    (output : c.output? w = some v) (adjacent : Adjacent (line w') a x) :
    ¬ Relation.ReflTransGen c.graph.Joins v a := by
  intro path
  have stuck := fun y => layout.not_joins_of_tip? (x := y) (layout.output_spec output).1
  rcases Relation.ReflTransGen.cases_head path with rfl | ⟨y, joins, -⟩
  · exact stuck x (layout.joins_iff.mpr ⟨w', adjacent⟩)
  · exact stuck y joins

/-- An appended operation is put right before the outputs of its wires. -/
theorem Layout.addOperation (layout : c.Layout line) (accepts : c.Accepts op qubits clbits) :
    ∃ line', c.Grown line op qubits clbits (c.outputPorts (qubits ++ clbits))
      ((Circuit.addOperation op qubits clbits).after c) line' := by
  obtain ⟨length, outputs⟩ := outputPorts_eq (layout.outputs_of_accepts accepts)
  rw [Edit.after, addOperation_run, validate_eq_ok_iff.mpr accepts]
  refine layout.place accepts length.ge ?_ ?_
  · intro w p member
    obtain ⟨v, output, rfl⟩ := outputs w p member
    obtain ⟨-, ⟨a, adjacent⟩, port⟩ := layout.output_spec output
    exact ⟨a, v, adjacent, port⟩
  · intro w p w' p' a member member' adjacent
    obtain ⟨v, output, rfl⟩ := outputs w p member
    exact layout.not_path_of_output output adjacent

/-- Nothing but the output comes after an appended operation on its wires. -/
theorem Layout.appended {c' : Circuit} {line' : WireId → List VertexId} (layout : c.Layout line)
    (accepts : c.Accepts op qubits clbits)
    (grown : c.Grown line op qubits clbits (c.outputPorts (qubits ++ clbits)) c' line')
    (member : w ∈ qubits ++ clbits) : ∃ front o, c.output? w = some o ∧
      line w = front ++ [o] ∧ line' w = front ++ [c.records.size, o] := by
  obtain ⟨p, entry, front, a, back, shape, shape'⟩ := grown.inserted w member
  obtain ⟨-, outputs⟩ := outputPorts_eq (layout.outputs_of_accepts accepts)
  obtain ⟨o, output, rfl⟩ := outputs w p entry
  have last : back = [] := by
    cases back with
    | nil => rfl
    | cons x back =>
        have next : Adjacent (line w) o x := ⟨front ++ [a], back, by simp [shape]⟩
        have tip : (line w).getLast? = some o := (layout.output_spec output).1
        exact absurd tip (next.getLast?_ne (layout.strung w).nodup)
  subst last
  exact ⟨front ++ [a], o, output, by simpa using shape, by simpa using shape'⟩

theorem LaidOut.addOperation (laid : c.LaidOut) (op : Operation) (qubits clbits : List WireId) :
    ((addOperation op qubits clbits).after c).LaidOut := by
  obtain ⟨line, layout⟩ := id laid
  cases valid : c.validate op qubits clbits with
  | error cause =>
      rw [Edit.after, addOperation_run, valid]
      exact laid
  | ok _ =>
      obtain ⟨line', grown⟩ := layout.addOperation (validate_eq_ok_iff.mp valid)
      exact ⟨line', grown.layout⟩

/-! ## Inserting -/

/-- An insertion point is a vertex on the wire, with its predecessor. -/
theorem Layout.insertionPoint_spec (layout : c.Layout line) {point : InsertionPoint}
    (found : c.insertionPoint v w = .ok point) :
    ∃ a, Adjacent (line w) a v ∧ point = ⟨c.records.portOn w v, a⟩ := by
  unfold insertionPoint at found
  cases lookup : c.records.get? v with
  | none => simp [lookup] at found
  | some r =>
      simp only [lookup] at found
      split at found
      · cases found
      · next kept =>
          split at found
          · cases found
          · next notInput =>
              cases place : c.records.wireIndex v w with
              | error cause => simp [place] at found
              | ok index =>
                  obtain ⟨s, lookup', carried, rfl⟩ := Records.wireIndex_eq_ok_iff.mp place
                  obtain rfl := Option.some.inj (lookup.symm.trans lookup')
                  have live : c.records.Live v r := ⟨lookup, by simpa using kept⟩
                  have carries : c.records.Carries v w := ⟨r, live, carried⟩
                  obtain ⟨a, adjacent⟩ : ∃ a, Adjacent (line w) a v :=
                    layout.exists_beside live (layout.covered v w carries) .incoming notInput
                  have facing := (layout.strung w).incoming a v adjacent
                  rw [place, Records.neighbor_of_carries carries, facing] at found
                  cases found
                  exact ⟨a, adjacent, by rw [Records.portOn_eq lookup]; rfl⟩

theorem insertionPoints_spec (layout : c.Layout line) {wires : List WireId}
    {points : List InsertionPoint} (same : before.length = wires.length)
    (found : (before.zip wires).mapM (fun (v, w) => c.insertionPoint v w) = .ok points) :
    (points.map (·.successor)).length = wires.length ∧
      ∀ w p, (w, p) ∈ wires.zip (points.map (·.successor)) → ∃ v a,
        (v, w) ∈ before.zip wires ∧ ⟨c.records.portOn w v, a⟩ ∈ points ∧
          Adjacent (line w) a v ∧ p = c.records.portOn w v := by
  obtain ⟨length, each⟩ := List.forall₂_iff_zip.mp (mapM_eq_ok_iff.mp found)
  refine ⟨by simp [← length, same], fun w p member => ?_⟩
  obtain ⟨j, position⟩ := List.getElem?_of_mem member
  obtain ⟨wire, successor⟩ := List.getElem?_zip_eq_some.mp position
  rw [List.getElem?_map, Option.map_eq_some_iff] at successor
  obtain ⟨point, pointAt, rfl⟩ := successor
  have bound : j < before.length := same ▸ (List.getElem?_eq_some_iff.mp wire).1
  have given : (before.zip wires)[j]? = some (before[j], w) :=
    List.getElem?_zip_eq_some.mpr ⟨List.getElem?_eq_getElem bound, wire⟩
  have inZip : ((before[j], w), point) ∈ (before.zip wires).zip points :=
    List.mem_of_getElem? (List.getElem?_zip_eq_some.mpr ⟨given, pointAt⟩)
  obtain ⟨a, adjacent, rfl⟩ := layout.insertionPoint_spec (each inZip)
  exact ⟨before[j], a, List.mem_of_getElem? given, List.mem_of_getElem? pointAt, adjacent, rfl⟩

theorem not_path_of_closesCycle {points : List InsertionPoint} {p q : InsertionPoint}
    (open_ : c.closesCycle points = false) (left : p ∈ points) (right : q ∈ points) :
    ¬ Relation.ReflTransGen c.graph.Joins p.successor.vertex q.predecessor := by
  have none : ∀ p ∈ points, ∀ q ∈ points,
      c.graph.hasPath p.successor.vertex q.predecessor = false := by
    simpa [closesCycle] using open_
  exact Graph.not_reflTransGen_of_hasPath (none p left q right)

/-- When no successor leads to a predecessor, the operation is put before the given vertices. -/
theorem Layout.placeBefore (layout : c.Layout line) (accepts : c.Accepts op qubits clbits)
    (same : before.length = (qubits ++ clbits).length) {points : List InsertionPoint}
    (found : (before.zip (qubits ++ clbits)).mapM (fun (v, w) => c.insertionPoint v w) = .ok points)
    (open_ : c.closesCycle points = false) :
    ∃ line', c.Grown line op qubits clbits (points.map (·.successor))
      (c.place op qubits clbits (points.map (·.successor))) line' := by
  obtain ⟨length, members⟩ := insertionPoints_spec layout same found
  apply layout.place accepts length.ge
  · intro w p member
    obtain ⟨v, a, -, -, adjacent, rfl⟩ := members w p member
    exact ⟨a, v, adjacent, rfl⟩
  · intro w p w' p' a member member' adjacent path
    obtain ⟨v, a', -, inPoints, -, rfl⟩ := members w p member
    obtain ⟨v', a'', -, inPoints', adjacent', rfl⟩ := members w' p' member'
    obtain rfl := adjacent.left_unique adjacent' (layout.strung w').nodup
    exact not_path_of_closesCycle open_ inPoints inPoints' path

/-- An insertion that succeeds has passed all checks and puts the operation on the lines. -/
theorem Layout.grown_of_insertOperation (layout : c.Layout line) {c' : Circuit}
    (run : (Circuit.insertOperation op before qubits clbits).run c = .ok v c') :
    v = c.records.size ∧ c.Accepts op qubits clbits ∧
      before.length = (qubits ++ clbits).length ∧ ∃ points line',
        (before.zip (qubits ++ clbits)).mapM (fun (v, w) => c.insertionPoint v w) = .ok points ∧
        c' = c.place op qubits clbits (points.map (·.successor)) ∧
        c.Grown line op qubits clbits (points.map (·.successor)) c' line' := by
  obtain ⟨accepts, length, points, found, open_, number, placed⟩ :=
    insertOperation_eq_ok_iff.mp run
  obtain ⟨line', grown⟩ := layout.placeBefore accepts length found open_
  exact ⟨number, accepts, length, points, line', found, placed, placed ▸ grown⟩

theorem LaidOut.insertOperation (laid : c.LaidOut) (op : Operation) (before : List VertexId)
    (qubits clbits : List WireId) :
    ((insertOperation op before qubits clbits).after c).LaidOut := by
  obtain ⟨line, layout⟩ := id laid
  rw [Edit.after, insertOperation_run]
  cases valid : c.validate op qubits clbits with
  | error cause => exact laid
  | ok _ =>
      have accepts := validate_eq_ok_iff.mp valid
      simp only
      by_cases same : before.length = (qubits ++ clbits).length
      · cases found : (before.zip (qubits ++ clbits)).mapM
            fun (v, w) => c.insertionPoint v w with
        | error cause => simpa [same] using laid
        | ok points =>
            cases cyclic : c.closesCycle points with
            | true => simpa [same, cyclic] using laid
            | false =>
                simp only [same, ne_eq, not_true_eq_false, ↓reduceIte, cyclic,
                  Bool.false_eq_true]
                obtain ⟨line', grown⟩ := layout.placeBefore accepts same found cyclic
                exact ⟨line', grown.layout⟩
      · simp only [ne_eq, same, not_false_eq_true, ↓reduceIte]
        exact laid

end CircuitDag.Circuit
