import CircuitDag.Proofs.Circuit.Threading
import CircuitDag.Proofs.Circuit.Validation

/-!
# Adding operations

An operation is spliced into its wires one after the other. When no successor leads to a
predecessor, the vertices still have an order in which all edges lead forward.
-/

set_option autoImplicit false

namespace CircuitDag

/-- A line into which a vertex has been put right before another vertex. -/
def Inserted (v b : VertexId) (l l' : List VertexId) : Prop :=
  ∃ front a back, l = front ++ a :: b :: back ∧ l' = front ++ a :: v :: b :: back

theorem Inserted.mem {v b : VertexId} {l l' : List VertexId} (inserted : Inserted v b l l') :
    v ∈ l' := by
  obtain ⟨front, a, back, -, rfl⟩ := inserted
  simp

theorem Inserted.sublist {v b : VertexId} {l l' : List VertexId} (inserted : Inserted v b l l') :
    l.Sublist l' := by
  obtain ⟨front, a, back, rfl, rfl⟩ := inserted
  exact (List.Sublist.refl front).append (((List.sublist_cons_self v (b :: back))).cons_cons a)

theorem Inserted.tip?_eq {v b : VertexId} {l l' : List VertexId} (inserted : Inserted v b l l')
    (side : Side) : Circuit.tip? l' side = Circuit.tip? l side := by
  obtain ⟨front, a, back, rfl, rfl⟩ := inserted
  cases side with
  | incoming => cases front <;> rfl
  | outgoing => simp [Circuit.tip?, List.getLast?_append, List.getLast?_cons_cons]

section Order

variable {line line' : WireId → List VertexId} {v : VertexId} {l : List VertexId}

theorem sublist_filter {part : List VertexId} {keep : VertexId → Bool} (included : part.Sublist l)
    (all : ∀ x ∈ part, keep x = true) : part.Sublist (l.filter keep) := by
  have filtered := included.filter keep
  rwa [List.filter_eq_self.mpr all] at filtered

theorem nodup_put (unique : l.Nodup) (later : VertexId → Prop) [DecidablePred later] :
    ((l.filter fun x => x ≠ v ∧ ¬ later x) ++ v :: l.filter fun x => x ≠ v ∧ later x).Nodup := by
  refine List.nodup_append.mpr ⟨unique.filter _, List.nodup_cons.mpr ⟨?_, unique.filter _⟩, ?_⟩
  · simp
  · intro x inFront y inBack same
    subst same
    have front := (List.mem_filter.mp inFront).2
    rcases List.mem_cons.mp inBack with equal | inBack
    · simp [equal] at front
    · have back := (List.mem_filter.mp inBack).2
      simp only [decide_eq_true_eq] at front back
      exact front.2 back.2

/-- A vertex can be put between the vertices that lead to it and those that it leads to. -/
theorem Orderly.insert (orderly : Orderly line) (later : VertexId → Prop) (fresh : ∀ w, v ∉ line w)
    (passes : ∀ w a b, Adjacent (line w) a b → later a → later b)
    (grown : ∀ w, line' w = line w ∨ ∃ front a b back, line w = front ++ a :: b :: back ∧
      line' w = front ++ a :: v :: b :: back ∧ later b ∧ ¬ later a) : Orderly line' := by
  classical
  obtain ⟨order, unique, sublist⟩ := orderly
  have apart : ∀ {w x}, x ∈ line w → x ≠ v := by
    intro w x member same
    obtain rfl := same
    exact fresh w member
  have before : ∀ w {part : List VertexId}, part.Sublist (line w) → (∀ x ∈ part, ¬ later x) →
      part.Sublist (order.filter fun x => x ≠ v ∧ ¬ later x) := by
    intro w part included all
    refine sublist_filter (included.trans (sublist w)) fun x member => ?_
    simp [apart (included.subset member), all x member]
  have after : ∀ w {part : List VertexId}, part.Sublist (line w) → (∀ x ∈ part, later x) →
      part.Sublist (order.filter fun x => x ≠ v ∧ later x) := by
    intro w part included all
    refine sublist_filter (included.trans (sublist w)) fun x member => ?_
    simp [apart (included.subset member), all x member]
  refine ⟨(order.filter fun x => x ≠ v ∧ ¬ later x) ++
    v :: order.filter fun x => x ≠ v ∧ later x, ?_, ?_⟩
  · exact nodup_put unique later
  · intro w
    rcases grown w with same | ⟨front, a, b, back, shape, shape', holds, fails⟩
    · obtain ⟨front, back, shape, early, late⟩ := exists_split (passes w)
      rw [same, shape]
      refine (before w ?_ early).append (List.Sublist.cons _ (after w ?_ late))
      · exact shape ▸ List.sublist_append_left front back
      · exact shape ▸ List.sublist_append_right front back
    · obtain ⟨early, late⟩ := holds_around_gap (shape ▸ passes w) holds fails
      have split : line w = (front ++ [a]) ++ b :: back := by simp [shape]
      have joined := (before w (split ▸ List.sublist_append_left ..) early).append
        ((after w (split ▸ List.sublist_append_right ..) late).cons_cons v)
      rw [shape']
      simpa using joined

end Order

namespace Circuit

variable {c c' : Circuit} {line line' : WireId → List VertexId} {u v b : VertexId} {w : WireId}
  {op : Operation} {qubits clbits : List WireId}

/-- Splicing a vertex into several wires puts it on each of their lines. -/
theorem Threaded.spliceAll (points : List (WireId × Port)) (start : Nat)
    (threaded : c.Threaded line) (distinct : (points.map Prod.fst).Nodup)
    (positions : ∀ j w p, points[j]? = some (w, p) →
      c.records.Carries v w ∧ c.records.portOn w v = ⟨v, start + j⟩)
    (fresh : ∀ w ∈ points.map Prod.fst, v ∉ line w)
    (targets : ∀ w p, (w, p) ∈ points →
      ∃ a b, Adjacent (line w) a b ∧ p = c.records.portOn w b) :
    let c' := (points.zipIdx start).foldl
      (fun c ((wire, successor), i) => c.spliceBefore ⟨v, i⟩ wire successor) c
    c.Rewired c' ∧ ∃ line', c'.Threaded line' ∧
      (∀ w, w ∉ points.map Prod.fst → line' w = line w) ∧
      ∀ w p, (w, p) ∈ points → Inserted v p.vertex (line w) (line' w) := by
  induction points generalizing c line start with
  | nil => exact ⟨.refl c, line, threaded, fun _ _ => rfl, by simp⟩
  | cons point points ih =>
      obtain ⟨w, p⟩ := point
      obtain ⟨absent, unique⟩ := List.nodup_cons.mp distinct
      obtain ⟨carries, position⟩ := positions 0 w p rfl
      obtain ⟨a, b, ⟨front, back, shape⟩, rfl⟩ := targets w p List.mem_cons_self
      have spliced := threaded.splice shape carries (fresh w (by simp))
      have rewired := rewired_spliceBefore c (c.records.portOn w v) w (c.records.portOn w b)
      rw [position] at spliced rewired
      have portSame := Records.portOn_congr rewired.bare
      have different : ∀ x ∈ points.map Prod.fst, x ≠ w := by
        intro x member same
        obtain rfl := same
        exact absent member
      obtain ⟨rewired', line', threaded', others, inserted⟩ := ih (start + 1) spliced unique
        (by
          intro j x q found
          obtain ⟨carries, position⟩ := positions (j + 1) x q found
          refine ⟨carries.of_bare? rewired.bare, ?_⟩
          rw [portSame, position, Nat.add_right_comm, Nat.add_assoc])
        (by
          intro x member
          rw [Function.update_of_ne (different x member)]
          exact fresh x (List.mem_cons_of_mem w member))
        (by
          intro x q member
          have inPoints : x ∈ points.map Prod.fst := List.mem_map.mpr ⟨(x, q), member, rfl⟩
          rw [Function.update_of_ne (different x inPoints), portSame]
          exact targets x q (List.mem_cons_of_mem _ member))
      rw [List.zipIdx_cons, List.foldl_cons]
      refine ⟨rewired.trans rewired', line', threaded', ?_, ?_⟩
      · intro x outside
        rw [List.map_cons, List.mem_cons, not_or] at outside
        rw [others x outside.2, Function.update_of_ne outside.1]
      · intro x q member
        rcases List.mem_cons.mp member with equal | member
        · obtain ⟨rfl, rfl⟩ := Prod.mk.inj equal
          rw [others x absent, Function.update_self, Records.portOn_vertex]
          exact ⟨front, a, back, shape, rfl⟩
        · have inPoints : x ∈ points.map Prod.fst := List.mem_map.mpr ⟨(x, q), member, rfl⟩
          have result := inserted x q member
          rwa [Function.update_of_ne (different x inPoints)] at result

theorem Accepts.wired (accepts : c.Accepts op qubits clbits) :
    c.Wired (Record.unwired op qubits clbits) where
  nonempty := accepts.nonempty
  nodup := accepts.nodup
  placed i w position := by
    change (qubits ++ clbits)[i]? = some w at position
    change w < c.numWires ∧ (i < qubits.length ↔ w < c.numQubits)
    rw [List.getElem?_append] at position
    split at position
    · next quantum =>
        have bound := accepts.quantum w (List.mem_of_getElem? position)
        exact ⟨Nat.lt_of_lt_of_le bound (Nat.le_add_right ..), by simp [quantum, bound]⟩
    · next classical =>
        have bound := accepts.classical w (List.mem_of_getElem? position)
        exact ⟨bound.2, by simp [classical, bound.1]⟩

theorem Accepts.lt_numWires (accepts : c.Accepts op qubits clbits) (member : w ∈ qubits ++ clbits) :
    w < c.numWires := by
  obtain ⟨i, position⟩ := List.getElem?_of_mem member
  exact (accepts.wired.placed i w position).1

theorem Seated.push (seated : c.Seated line) (accepts : c.Accepts op qubits clbits)
    (others : ∀ w, w ∉ qubits ++ clbits → line' w = line w)
    (inserted : ∀ w ∈ qubits ++ clbits, ∃ b, Inserted c.records.size b (line w) (line' w)) :
    (c.pushVertex op qubits clbits).Seated line' := by
  have kept : (Record.unwired op qubits clbits).removed = false := rfl
  have grown : ∀ w, (line w).Sublist (line' w) := by
    intro w
    by_cases member : w ∈ qubits ++ clbits
    · obtain ⟨b, inserted⟩ := inserted w member
      exact inserted.sublist
    · rw [others w member]
  have tipSame : ∀ side w, tip? (line' w) side = tip? (line w) side := by
    intro side w
    by_cases member : w ∈ qubits ++ clbits
    · obtain ⟨b, inserted⟩ := inserted w member
      exact inserted.tip?_eq side
    · rw [others w member]
  have oldLive : ∀ v s, c.records.Live v s →
      (c.pushVertex op qubits clbits).records.Live v s := fun v s live => live.push _
  constructor
  · intro v s live
    rcases Records.Live.of_push live with old | ⟨-, rfl⟩
    · exact ⟨(seated.wired v s old).nonempty, (seated.wired v s old).nodup,
        (seated.wired v s old).placed⟩
    · exact ⟨accepts.wired.nonempty, accepts.wired.nodup, accepts.wired.placed⟩
  · intro v s found removed
    rcases Records.get?_of_push found with old | ⟨-, rfl⟩
    · exact seated.retired v s old removed
    · exact absurd removed (by simp [kept])
  · intro v w given
    obtain ⟨s, live, member⟩ := given
    rcases Records.Live.of_push live with old | ⟨rfl, rfl⟩
    · exact (grown w).subset (seated.covered v w ⟨s, old, member⟩)
    · obtain ⟨b, inserted⟩ := inserted w member
      exact inserted.mem
  · exact seated.sizes
  · intro side w
    rw [tipSame]
    exact seated.tips side w
  · intro side w v anchor
    obtain ⟨s, live, rest⟩ := seated.anchored side w v anchor
    exact ⟨s, oldLive v s live, rest⟩
  · intro side v s live element
    rcases Records.Live.of_push live with old | ⟨-, rfl⟩
    · exact seated.terminal side v s old element
    · have operation := accepts.operation
      have element : op.element = endElement side := element
      rw [element] at operation
      cases side <;> cases operation

/-- A circuit to which an operation has been added, with its vertex put on the lines of its wires
right before some vertices and with nothing else changed. -/
structure Grown (c : Circuit) (line : WireId → List VertexId) (op : Operation)
    (qubits clbits : List WireId) (successors : List Port) (c' : Circuit)
    (line' : WireId → List VertexId) : Prop where
  layout : c'.Layout line'
  bare : c'.records.bare? = (c.records.push (Record.unwired op qubits clbits)).bare?
  numQubits : c'.numQubits = c.numQubits
  numClbits : c'.numClbits = c.numClbits
  others : ∀ w, w ∉ qubits ++ clbits → line' w = line w
  inserted : ∀ w ∈ qubits ++ clbits, ∃ p, (w, p) ∈ (qubits ++ clbits).zip successors ∧
    Inserted c.records.size p.vertex (line w) (line' w)

theorem Grown.bare?_of_ne {successors : List Port}
    (grown : c.Grown line op qubits clbits successors c' line') (other : u ≠ c.records.size) :
    c'.records.bare? u = c.records.bare? u := by
  rw [grown.bare, Records.bare?, Records.get?_push, if_neg other, Records.bare?]

/-- Vertices keep an order if none of those right before which a new vertex is put leads to a vertex
before another one of them. -/
theorem Layout.orderly_inserted (layout : c.Layout line) {targets : List (WireId × Port)}
    {line' : WireId → List VertexId} (fresh : ∀ w, v ∉ line w)
    (others : ∀ w, w ∉ targets.map Prod.fst → line' w = line w)
    (inserted : ∀ w p, (w, p) ∈ targets → Inserted v p.vertex (line w) (line' w))
    (forward : ∀ w p w' p' a, (w, p) ∈ targets → (w', p') ∈ targets →
      Adjacent (line w') a p'.vertex → ¬ Relation.ReflTransGen c.graph.Joins p.vertex a) :
    Orderly line' := by
  refine layout.orderly.insert
    (fun x => ∃ w p, (w, p) ∈ targets ∧ Relation.ReflTransGen c.graph.Joins p.vertex x) fresh ?_ ?_
  · intro w a b adjacent given
    obtain ⟨x, p, member, path⟩ := given
    exact ⟨x, p, member, path.tail (layout.joins_iff.mpr ⟨w, adjacent⟩)⟩
  · intro w
    by_cases listed : w ∈ targets.map Prod.fst
    · obtain ⟨⟨w, p⟩, member, rfl⟩ := List.mem_map.mp listed
      obtain ⟨front, a, back, shape, shape'⟩ := inserted w p member
      refine .inr ⟨front, a, p.vertex, back, shape, shape', ⟨w, p, member, .refl⟩, ?_⟩
      intro given
      obtain ⟨x, q, member', path⟩ := given
      exact forward x q w p a member' member ⟨front, back, shape⟩ path
    · exact .inl (others w listed)

/-- An operation is put right before vertices on its wires none of which leads to a vertex before
another one of them. -/
theorem Layout.place (layout : c.Layout line) (accepts : c.Accepts op qubits clbits)
    {successors : List Port} (length : (qubits ++ clbits).length ≤ successors.length)
    (targets : ∀ w p, (w, p) ∈ (qubits ++ clbits).zip successors →
      ∃ a b, Adjacent (line w) a b ∧ p = c.records.portOn w b)
    (forward : ∀ w p w' p' a, (w, p) ∈ (qubits ++ clbits).zip successors →
      (w', p') ∈ (qubits ++ clbits).zip successors → Adjacent (line w') a p'.vertex →
      ¬ Relation.ReflTransGen c.graph.Joins p.vertex a) :
    ∃ line', c.Grown line op qubits clbits successors (c.place op qubits clbits successors)
      line' := by
  have wires : ((qubits ++ clbits).zip successors).map Prod.fst = qubits ++ clbits :=
    List.map_fst_zip length
  have kept : (Record.unwired op qubits clbits).removed = false := rfl
  have live : (c.pushVertex op qubits clbits).records.Live c.records.size
      (Record.unwired op qubits clbits) := Records.live_push_size c.records kept
  have fresh : ∀ w, c.records.size ∉ line w := fun w member => layout.ne_size member rfl
  have portSame : ∀ w, ∀ b ∈ line w,
      (c.pushVertex op qubits clbits).records.portOn w b = c.records.portOn w b := by
    intro w b member
    obtain ⟨r, live, -⟩ := layout.carries member
    have pushed : (c.pushVertex op qubits clbits).records.Live b r := live.push _
    rw [Records.portOn_eq live.1, Records.portOn_eq pushed.1]
  obtain ⟨rewired, line', threaded, others, inserted⟩ :=
    (layout.pushVertex op qubits clbits).spliceAll ((qubits ++ clbits).zip successors) 0
      (v := c.records.size) (by rw [wires]; exact accepts.nodup)
      (by
        intro j w p found
        have position : (qubits ++ clbits)[j]? = some w := (List.getElem?_zip_eq_some.mp found).1
        rw [Nat.zero_add]
        exact ⟨⟨_, live, List.mem_of_getElem? position⟩,
          Records.portOn_of_getElem? live.1 accepts.nodup position⟩)
      (fun w _ => fresh w)
      (by
        intro w p member
        obtain ⟨a, b, adjacent, rfl⟩ := targets w p member
        exact ⟨a, b, adjacent, (portSame w b adjacent.mem_right).symm⟩)
  rw [wires] at others
  have insertedOn : ∀ w ∈ qubits ++ clbits,
      ∃ p, (w, p) ∈ (qubits ++ clbits).zip successors ∧
        Inserted c.records.size p.vertex (line w) (line' w) := by
    intro w member
    rw [← wires, List.mem_map] at member
    obtain ⟨⟨w, p⟩, member, rfl⟩ := member
    exact ⟨p, member, inserted w p member⟩
  have seated : (c.pushVertex op qubits clbits).Seated line' := by
    refine layout.toSeated.push accepts others fun w member => ?_
    obtain ⟨p, -, inserted⟩ := insertedOn w member
    exact ⟨p.vertex, inserted⟩
  have same := rewired.sameSeats
  refine ⟨line', ⟨threaded.of_eq rfl rfl, ?_, ⟨?_, ?_, ?_⟩, ?_⟩, rewired.bare, same.numQubits,
    same.numClbits, others, insertedOn⟩
  · exact seated.of_sameSeats ⟨same.bare, same.numQubits, same.numClbits, same.inputs, same.outputs⟩
  · change ParamTable.Coherent (ParamTable.registerAll _ _ _)
    rw [rewired.params_eq]
    exact layout.coherent.registerAll ..
  · change ParamTable.Indexes (ParamTable.registerAll _ _ _) _
    rw [rewired.params_eq]
    exact (layout.indexed.push layout.coherent kept).congr rewired.bare
  · refine rewired.numRemoved_eq.trans ?_
    refine (layout.numRemoved.trans (Records.numTombstones_push kept).symm).trans ?_
    exact (Records.numTombstones_congr rewired.bare rewired.size).symm
  · exact layout.orderly_inserted fresh (by rwa [wires]) inserted forward

end Circuit

end CircuitDag
