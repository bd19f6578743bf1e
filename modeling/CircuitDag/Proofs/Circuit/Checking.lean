import CircuitDag.Proofs.Circuit.WellFormed

/-!
# What the parts of the check ask for

Each part of `Circuit.check` succeeds exactly under a condition that is told here, whatever the
circuit looks like otherwise.
-/

set_option autoImplicit false

namespace CircuitDag.Circuit

variable {c : Circuit} {line : WireId → List VertexId} {side : Side} {u v : VertexId} {w : WireId}
  {r : Record} {i : Nat}

/-! ## Anchors -/

theorem checkAnchor_eq_ok_iff {element : Element} : c.checkAnchor element w v = .ok () ↔
    ∃ r, c.records.Live v r ∧ r.element = element ∧ r.wires = [w] := by
  unfold checkAnchor Records.Live
  cases found : c.records.get? v with
  | none => simp
  | some r =>
      simp only [Option.some.injEq, exists_eq_left', and_assoc]
      cases removed : r.removed with
      | true => simp
      | false =>
          by_cases fits : r.element = element <;> by_cases wires : r.wires = [w] <;>
            simp [fits, wires]

theorem checkAnchors_eq_ok_iff : c.checkAnchors = .ok () ↔
    (∀ side, (c.anchors side).size = c.numWires) ∧
      ∀ side w v, (c.anchors side)[w]? = some v →
        ∃ r, c.records.Live v r ∧ r.element = endElement side ∧ r.wires = [w] := by
  rw [checkAnchors, unless_eq_ok_iff, forM_eq_ok_iff, not_or, not_not, not_not]
  simp only [Prod.forall, List.mk_mem_zipIdx_iff_getElem?, List.getElem?_zip_eq_some,
    Array.getElem?_toList, check_seq_iff, checkAnchor_eq_ok_iff]
  constructor
  · intro given
    obtain ⟨⟨inputs, outputs⟩, each⟩ := given
    have sizes : ∀ side, (c.anchors side).size = c.numWires := by
      intro side
      cases side with
      | incoming => exact inputs
      | outgoing => exact outputs
    refine ⟨sizes, ?_⟩
    intro side w v anchor
    have bound : w < c.numWires := by
      rw [← sizes side]
      exact (Array.getElem?_eq_some_iff.mp anchor).1
    have input := Array.getElem?_eq_getElem (inputs ▸ bound : w < c.inputs.size)
    have output := Array.getElem?_eq_getElem (outputs ▸ bound : w < c.outputs.size)
    have both := each _ _ w ⟨input, output⟩
    cases side with
    | incoming =>
        obtain rfl := Option.some.inj (anchor.symm.trans input)
        exact both.1
    | outgoing =>
        obtain rfl := Option.some.inj (anchor.symm.trans output)
        exact both.2
  · intro given
    obtain ⟨sizes, each⟩ := given
    exact ⟨⟨sizes .incoming, sizes .outgoing⟩, fun a b w both =>
      ⟨each .incoming w a both.1, each .outgoing w b both.2⟩⟩

/-! ## Vertices -/

theorem checkPort_eq_ok_iff : c.checkPort v r i w side = .ok () ↔
    (r.port? side i = none ↔ r.element = endElement side) ∧
      ∀ port, r.port? side i = some port → ∃ s, c.records.Live port.vertex s ∧
        s.wires[port.index]? = some w ∧ s.port? side.opposite port.index = some ⟨v, i⟩ := by
  unfold checkPort
  cases led : r.port? side i with
  | none => by_cases ends : r.element = endElement side <;> simp [ends]
  | some port =>
      by_cases ends : r.element = endElement side
      · simp [ends]
      · simp only [ends, decide_false, reduceCtorEq, Option.some.injEq, forall_eq', true_and]
        cases live : c.records.isLive port.vertex with
        | false =>
            have dead : ∀ s, ¬ c.records.Live port.vertex s := by
              intro s alive
              cases live.symm.trans (Records.isLive_of_live alive)
            simp [dead]
        | true =>
            obtain ⟨s, alive⟩ := Records.isLive_iff.mp live
            have only : ∀ t, c.records.Live port.vertex t ↔ t = s :=
              fun t => ⟨fun other => other.unique alive, fun same => same ▸ alive⟩
            simp only [↓reduceIte, alive.1, Option.bind_some, only, exists_eq_left,
              Records.port?]
            by_cases place : s.wires[port.index]? = some w
            · by_cases back : s.port? side.opposite port.index = some ⟨v, i⟩ <;>
                simp [place, back]
            · simp [place]

theorem checkEdge_eq_ok_iff : c.checkEdge v r i w = .ok () ↔
    ∀ port, r.port? .incoming i = some port → (port.vertex, v, w) ∈ c.graph.segments := by
  unfold checkEdge
  cases r.port? .incoming i with
  | none => simp
  | some port =>
      simp only [← Graph.hasEdge_iff, Option.some.injEq, forall_eq']
      cases c.graph.hasEdge port.vertex v w <;> simp

/-- What is asked for at one wire position of a live vertex. -/
structure PositionFine (c : Circuit) (v : VertexId) (r : Record) (i : Nat) (w : WireId) :
    Prop where
  bounded : w < c.numWires
  placed : i < r.numQuantum ↔ w < c.numQubits
  ports : ∀ side, c.checkPort v r i w side = .ok ()
  edge : c.checkEdge v r i w = .ok ()

theorem checkWirePositions_eq_ok_iff {wires seen : List WireId} {start : Nat} :
    c.checkWirePositions v r start seen wires = .ok () ↔
      (∀ i w, wires[i]? = some w → c.PositionFine v r (start + i) w) ∧ wires.Nodup ∧
        ∀ w ∈ wires, w ∉ seen := by
  induction wires generalizing start seen with
  | nil => simp [checkWirePositions]
  | cons x wires ih =>
      rw [checkWirePositions, unless_eq_ok_iff, unless_eq_ok_iff, check_seq_iff, check_seq_iff,
        check_seq_iff, ih, not_or, not_not, Nat.not_le, List.nodup_cons]
      have first : (x < c.numWires ∧ decide (start < r.numQuantum) = c.isQuantum x) ∧
          c.checkPort v r start x .incoming = .ok () ∧
            c.checkPort v r start x .outgoing = .ok () ∧ c.checkEdge v r start x = .ok () ↔
          c.PositionFine v r start x := by
        rw [isQuantum, decide_eq_decide]
        constructor
        · intro given
          obtain ⟨⟨bounded, placed⟩, incoming, outgoing, edge⟩ := given
          exact ⟨bounded, placed, fun side => by cases side <;> assumption, edge⟩
        · intro given
          obtain ⟨bounded, placed, ports, edge⟩ := given
          exact ⟨⟨bounded, placed⟩, ports .incoming, ports .outgoing, edge⟩
      constructor
      · intro given
        obtain ⟨here, fresh, incoming, outgoing, edge, later, unique, unseen⟩ := given
        refine ⟨?_, ⟨fun member => unseen x member List.mem_cons_self, unique⟩, ?_⟩
        · intro i w position
          cases i with
          | zero =>
              obtain rfl : x = w := by simpa using position
              exact first.mp ⟨here, incoming, outgoing, edge⟩
          | succ i =>
              rw [← Nat.add_assoc, Nat.add_right_comm]
              exact later i w position
        · intro w member seen'
          rcases List.mem_cons.mp member with rfl | member
          · exact fresh seen'
          · exact unseen w member (List.mem_cons_of_mem x seen')
      · intro given
        obtain ⟨each, ⟨fresh, unique⟩, unseen⟩ := given
        obtain ⟨here, incoming, outgoing, edge⟩ := first.mpr (each 0 x rfl)
        refine ⟨here, unseen x List.mem_cons_self, incoming, outgoing, edge, ?_, unique, ?_⟩
        · intro i w position
          have fine := each (i + 1) w position
          rwa [← Nat.add_assoc, Nat.add_right_comm] at fine
        · intro w member seen'
          rcases List.mem_cons.mp seen' with rfl | seen'
          · exact fresh member
          · exact unseen w (List.mem_cons_of_mem x member) seen'

/-- What is asked for at every vertex. -/
structure VerticesFine (c : Circuit) : Prop where
  wired : ∀ v r, c.records.Live v r → c.Wired r
  wireless : ∀ v r, c.records.get? v = some r → r.removed = true → r.wires = []
  edgeless : ∀ v r, c.records.get? v = some r → r.removed = true →
    ∀ e ∈ c.graph.edges, e.source ≠ v ∧ e.target ≠ v
  ports : c.PortsAgree
  linked : ∀ u v w, c.Precedes u v w → (u, v, w) ∈ c.graph.segments

theorem degrees_eq_zero_iff : c.graph.inDegree v + c.graph.outDegree v = 0 ↔
    ∀ e ∈ c.graph.edges, e.source ≠ v ∧ e.target ≠ v := by
  rw [Nat.add_eq_zero_iff, Graph.inDegree, Graph.outDegree, List.length_eq_zero_iff,
    List.length_eq_zero_iff, Graph.edgesInto, Graph.edgesOutOf, List.filter_eq_nil_iff,
    List.filter_eq_nil_iff]
  simp only [decide_eq_true_eq]
  exact ⟨fun both e member => ⟨both.2 e member, both.1 e member⟩,
    fun each => ⟨fun e member => (each e member).2, fun e member => (each e member).1⟩⟩

theorem checkVertex_eq_ok_iff : c.checkVertex v r = .ok () ↔
    (r.removed = true → r.wires = [] ∧ ∀ e ∈ c.graph.edges, e.source ≠ v ∧ e.target ≠ v) ∧
      (r.removed = false → r.wires ≠ [] ∧ r.wires.Nodup ∧
        ∀ i w, r.wires[i]? = some w → c.PositionFine v r i w) := by
  unfold checkVertex
  cases r.removed with
  | true =>
      simp only [← degrees_eq_zero_iff, List.isEmpty_iff, ↓reduceIte, true_implies,
        reduceCtorEq, false_implies, and_true]
      by_cases fine : r.wires = [] ∧ c.graph.inDegree v + c.graph.outDegree v = 0 <;> simp [fine]
  | false =>
      by_cases wireless : r.wires = []
      · simp [wireless]
      · simp only [Bool.false_eq_true, ↓reduceIte, List.isEmpty_iff, wireless,
          checkWirePositions_eq_ok_iff, Nat.zero_add, List.not_mem_nil, not_false_eq_true,
          implies_true, and_true, false_implies, ne_eq, true_implies, true_and]
        exact and_comm

theorem checkVertices_eq_ok_iff : c.checkVertices = .ok () ↔ c.VerticesFine := by
  rw [checkVertices, forM_eq_ok_iff]
  simp only [Prod.forall, List.mk_mem_zipIdx_iff_getElem?, Array.getElem?_toList,
    checkVertex_eq_ok_iff]
  constructor
  · intro each
    have live : ∀ v r, c.records.Live v r → r.wires ≠ [] ∧ r.wires.Nodup ∧
        ∀ i w, r.wires[i]? = some w → c.PositionFine v r i w :=
      fun v r alive => (each r v alive.1).2 alive.2
    have port : ∀ v r i w side, c.records.Live v r → r.wires[i]? = some w →
        c.checkPort v r i w side = .ok () :=
      fun v r i w side alive position => ((live v r alive).2.2 i w position).ports side
    constructor
    · intro v r alive
      obtain ⟨nonempty, unique, fine⟩ := live v r alive
      exact ⟨nonempty, unique, fun i w position =>
        ⟨(fine i w position).bounded, (fine i w position).placed⟩⟩
    · exact fun v r found removed => ((each r v found).1 removed).1
    · exact fun v r found removed => ((each r v found).1 removed).2
    · exact ⟨fun v r i w side alive position =>
        (checkPort_eq_ok_iff.mp (port v r i w side alive position)).1,
        fun v r i w side p alive position =>
          (checkPort_eq_ok_iff.mp (port v r i w side alive position)).2 p⟩
    · intro u v w given
      obtain ⟨r, i, j, alive, position, led⟩ := given
      exact checkEdge_eq_ok_iff.mp ((live v r alive).2.2 i w position).edge ⟨u, j⟩ led
  · intro fine r v found
    refine ⟨fun removed => ⟨fine.wireless v r found removed, fine.edgeless v r found removed⟩,
      fun kept => ?_⟩
    have wired := fine.wired v r ⟨found, kept⟩
    refine ⟨wired.nonempty, wired.nodup, fun i w position => ?_⟩
    constructor
    · exact (wired.placed i w position).1
    · exact (wired.placed i w position).2
    · exact fun side => checkPort_eq_ok_iff.mpr
        ⟨fine.ports.absent_iff v r i w side ⟨found, kept⟩ position,
          fun p => fine.ports.inverse v r i w side p ⟨found, kept⟩ position⟩
    · exact checkEdge_eq_ok_iff.mpr fun p led =>
        fine.linked p.vertex v w ⟨r, i, p.index, ⟨found, kept⟩, position, led⟩

/-! ## Graph and walks -/

theorem checkGraph_eq_ok_iff : c.checkGraph = .ok () ↔
    c.graph.numEdges = c.numLinks ∧ c.graph.isCyclic = false := by
  rw [checkGraph, unless_eq_ok_iff, not_not]
  cases c.graph.isCyclic <;> simp

theorem checkWalk_eq_ok_iff : c.checkWalk w v = .ok () ↔
    (c.wireVertices w).length = c.numCarriers w ∧ (c.wireVertices w).getLast? = some v := by
  have whole : ((c.wireVertices w).take (c.numCarriers w + 1)).length = c.numCarriers w ↔
      (c.wireVertices w).length = c.numCarriers w := by
    rw [List.length_take]
    omega
  simp only [checkWalk, whole]
  by_cases length : (c.wireVertices w).length = c.numCarriers w
  · rw [List.take_of_length_le (length ▸ Nat.le_succ _)]
    by_cases last : (c.wireVertices w).getLast? = some v <;> simp [length, last]
  · simp [length]

theorem checkWalks_eq_ok_iff :
    c.outputs.toList.zipIdx.forM (fun (output, wire) => c.checkWalk wire output) = .ok () ↔
      ∀ w v, c.output? w = some v → (c.wireVertices w).length = c.numCarriers w ∧
        (c.wireVertices w).getLast? = some v := by
  rw [forM_eq_ok_iff]
  simp only [Prod.forall, List.mk_mem_zipIdx_iff_getElem?, Array.getElem?_toList,
    checkWalk_eq_ok_iff]
  exact forall_comm

end CircuitDag.Circuit
