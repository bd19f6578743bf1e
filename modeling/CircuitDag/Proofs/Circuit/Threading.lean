import CircuitDag.Proofs.Circuit.Layout
import Mathlib.Logic.Function.Basic

/-!
# Threading wires

What adding a vertex, joining two vertices and splicing a vertex into a wire do to the lines that
ports and edges follow. Each step changes one line.
-/

set_option autoImplicit false

namespace CircuitDag.Circuit

variable {c : Circuit} {line : WireId → List VertexId} {a b v : VertexId} {w : WireId}
  {front back : List VertexId}

theorem Record.length_ports_unwired (op : Operation) (qubits clbits : List WireId) (side : Side) :
    ((Record.unwired op qubits clbits).ports side).length =
      (Record.unwired op qubits clbits).wires.length := by
  cases side <;> simp [Record.unwired, Record.ports]

theorem Threaded.pushVertex (threaded : c.Threaded line) (op : Operation)
    (qubits clbits : List WireId) : (c.pushVertex op qubits clbits).Threaded line where
  shaped := threaded.shaped.push (Record.length_ports_unwired op qubits clbits)
  strung w := (threaded.strung w).push _
  traced := ⟨threaded.traced.nodup, threaded.traced.mem_iff⟩
  slotted := threaded.slotted.addVertex
  numVertices := by
    change c.graph.numVertices + 1 = (c.records.push _).size
    rw [threaded.numVertices, Records.size_push]

theorem Threaded.of_eq {c' : Circuit} (threaded : c.Threaded line)
    (records : c'.records = c.records) (graph : c'.graph = c.graph) : c'.Threaded line where
  shaped := records ▸ threaded.shaped
  strung := records ▸ threaded.strung
  traced := graph ▸ threaded.traced
  slotted := graph ▸ threaded.slotted
  numVertices := by rw [graph, records, threaded.numVertices]

theorem adjacent_update {a b : VertexId} {x : WireId} {l : List VertexId} :
    Adjacent (Function.update line w l x) a b ↔
      (x = w ∧ Adjacent l a b) ∨ (x ≠ w ∧ Adjacent (line x) a b) := by
  by_cases same : x = w
  · subst same
    simp
  · simp [same]

/-- Joining two vertices that have no neighbours on a wire makes a line of the two. -/
theorem Threaded.connect (threaded : c.Threaded line) (empty : line w = [])
    (source : c.records.Carries a w) (target : c.records.Carries b w) (different : a ≠ b)
    (first : c.records.facing .incoming (c.records.portOn w a) = none)
    (last : c.records.facing .outgoing (c.records.portOn w b) = none) :
    (c.connect (c.records.portOn w a) (c.records.portOn w b) w).Threaded
      (Function.update line w [a, b]) where
  shaped := threaded.shaped.link ..
  strung x := by
    by_cases same : x = w
    · subst same
      rw [Function.update_self]
      refine Records.Strung.join threaded.shaped (Records.linked_singleton source)
        (Records.linked_singleton target) ?_ rfl rfl ?_ ?_
      · intro y member equal
        rw [List.mem_singleton] at member equal
        exact different (member.symm.trans equal)
      · intro y given
        obtain ⟨⟩ := given
        exact first
      · intro y given
        obtain ⟨⟩ := given
        exact last
    · rw [Function.update_of_ne same]
      exact (threaded.strung x).link_other threaded.shaped source target same
  traced := by
    refine threaded.traced.addEdge ?_ ?_
    · rw [empty]
      exact not_adjacent_nil _ _
    · intro s t x
      rw [adjacent_update, adjacent_pair, Records.portOn_vertex, Records.portOn_vertex]
      by_cases same : x = w
      · subst same
        simp [empty, eq_comm]
      · simp [same]
  slotted := threaded.slotted.addEdge ..
  numVertices := by
    change c.graph.numVertices = (c.records.link _ _).size
    rw [threaded.numVertices, Records.size_link]

/-- With a predecessor, a vertex is spliced in by replacing one edge by two. -/
theorem spliceBefore_eq {port successor predecessor : Port}
    (found : c.records.facing .incoming successor = some predecessor) :
    c.spliceBefore port w successor =
      ({ c with graph := c.graph.removeEdge predecessor.vertex successor.vertex w }.connect
        predecessor port w).connect port successor w := by
  have found : c.records.port? .incoming successor.vertex successor.index = some predecessor :=
    found
  simp only [spliceBefore, found]

theorem adjacent_insert (unique : (front ++ a :: b :: back).Nodup) {x y : VertexId} :
    Adjacent (front ++ a :: v :: b :: back) x y ↔
      (x = v ∧ y = b) ∨ (x = a ∧ y = v) ∨
        (Adjacent (front ++ a :: b :: back) x y ∧ ¬ (x = a ∧ y = b)) := by
  have left : ¬ Adjacent (front ++ [a]) a b := by
    intro adjacent
    refine adjacent.getLast?_ne ?_ (by simp)
    exact unique.sublist (by simp)
  have right : ¬ Adjacent (b :: back) a b := fun adjacent =>
    adjacent.head?_ne ((List.nodup_append.mp unique).2.1.tail) rfl
  have outer := @adjacent_append _ (front ++ [a]) (v :: b :: back) x y
  have inner := @adjacent_append _ (front ++ [a]) (b :: back) x y
  rw [adjacent_cons (x := v)] at outer
  simp only [List.getLast?_append, List.getLast?_singleton, Option.some_or, List.head?_cons,
    Option.some.injEq, List.append_assoc, List.cons_append, List.nil_append,
    @eq_comm _ a x, @eq_comm _ v x, @eq_comm _ v y, @eq_comm _ b y] at outer inner
  rw [outer, inner]
  by_cases ends : x = a ∧ y = b
  · obtain ⟨rfl, rfl⟩ := ends
    simp only [left, right, false_or, or_false, true_and, and_self, not_true_eq_false, and_false,
      and_true]
    exact or_comm
  · simp only [ends, not_false_eq_true, and_true, false_or]
    constructor
    · intro given
      rcases given with inFront | second | first | inBack
      · exact .inr (.inr (.inl inFront))
      · exact .inr (.inl second)
      · exact .inl first
      · exact .inr (.inr (.inr inBack))
    · intro given
      rcases given with first | second | inFront | inBack
      · exact .inr (.inr (.inl first))
      · exact .inr (.inl second)
      · exact .inl inFront
      · exact .inr (.inr (.inr inBack))

/-- Two edges through a vertex for the edge in its gap follow the lines with the vertex. -/
theorem traces_splice {g : Graph} (traced : g.Traces line)
    (shape : line w = front ++ a :: b :: back)
    (unique : (line w).Nodup) (fresh : v ∉ line w) :
    (((g.removeEdge a b w).addEdge a v w).addEdge v b w).Traces
      (Function.update line w (front ++ a :: v :: b :: back)) := by
  have vNeA : v ≠ a := by
    intro same
    obtain rfl := same
    exact fresh (by simp [shape])
  have absent : ∀ s t, s = v ∨ t = v → (s, t, w) ∉ g.segments := by
    intro s t ends member
    have adjacent := (traced.mem_iff s t w).mp member
    rcases ends with rfl | rfl
    · exact fresh adjacent.mem_left
    · exact fresh adjacent.mem_right
  constructor
  · simp only [Graph.segments_addEdge, Graph.segments_removeEdge, List.nodup_cons, List.mem_cons,
      Prod.mk.injEq, vNeA, false_and, false_or]
    exact ⟨fun member => absent v b (.inl rfl) (List.mem_of_mem_erase member),
      fun member => absent a v (.inr rfl) (List.mem_of_mem_erase member), traced.nodup.erase _⟩
  · intro s t x
    simp only [Graph.segments_addEdge, Graph.segments_removeEdge, List.mem_cons,
      traced.nodup.mem_erase_iff, traced.mem_iff, adjacent_update]
    by_cases equal : x = w
    · subst equal
      rw [adjacent_insert (shape ▸ unique), shape]
      simp only [Prod.mk.injEq, ne_eq, and_true, true_and, not_true_eq_false, false_and, or_false]
      exact or_congr_right (or_congr_right and_comm)
    · simp [equal]

theorem Threaded.splice (threaded : c.Threaded line)
    (shape : line w = front ++ a :: b :: back) (carries : c.records.Carries v w)
    (fresh : v ∉ line w) :
    (c.spliceBefore (c.records.portOn w v) w (c.records.portOn w b)).Threaded
      (Function.update line w (front ++ a :: v :: b :: back)) := by
  have strung : c.records.Strung w (front ++ a :: b :: back) := shape ▸ threaded.strung w
  have adjacent : Adjacent (line w) a b := ⟨front, back, shape⟩
  have source := threaded.carries adjacent.mem_left
  have target := threaded.carries adjacent.mem_right
  have facing : c.records.facing .incoming (c.records.portOn w b) =
      some (c.records.portOn w a) := (threaded.strung w).incoming a b adjacent
  have same := Records.bare?_link c.records (c.records.portOn w a) (c.records.portOn w v)
  rw [spliceBefore_eq facing]
  constructor
  · exact (threaded.shaped.link ..).link ..
  · intro x
    change ((c.records.link _ _).link _ _).Strung x _
    by_cases equal : x = w
    · subst equal
      rw [Function.update_self]
      have strung : c.records.Strung x ((front ++ [a]) ++ b :: back) := by simpa using strung
      have inserted := strung.insert threaded.shaped carries
        (by simpa [shape] using fresh) (a := a) (by simp)
      simpa using inserted
    · rw [Function.update_of_ne equal]
      have first := (threaded.strung x).link_other threaded.shaped source carries equal
      have second := first.link_other (threaded.shaped.link ..) (carries.of_bare? same)
        (target.of_bare? same) equal
      rwa [Records.portOn_congr same] at second
  · change (((c.graph.removeEdge _ _ w).addEdge _ _ w).addEdge _ _ w).Traces _
    simp only [Records.portOn_vertex]
    exact traces_splice threaded.traced shape (threaded.strung w).nodup fresh
  · exact ((threaded.slotted.removeEdge ..).addEdge ..).addEdge ..
  · change (c.graph.removeEdge _ _ w).numVertices = ((c.records.link _ _).link _ _).size
    rw [Graph.numVertices_removeEdge, threaded.numVertices, Records.size_link, Records.size_link]

theorem rewired_spliceBefore (c : Circuit) (port : Port) (w : WireId) (successor : Port) :
    c.Rewired (c.spliceBefore port w successor) := by
  unfold spliceBefore
  split
  · next predecessor _ =>
      have removed : c.Rewired
          { c with graph := c.graph.removeEdge predecessor.vertex successor.vertex w } :=
        ⟨rfl, rfl, rfl⟩
      exact (removed.trans (rewired_connect ..)).trans (rewired_connect ..)
  · exact rewired_connect ..

end CircuitDag.Circuit
