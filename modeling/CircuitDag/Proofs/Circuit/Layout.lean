import CircuitDag.Circuit.Check
import CircuitDag.Circuit.Compose
import CircuitDag.Proofs.Graph.TopologicalOrder
import CircuitDag.Proofs.ParamTable.Agreement

/-!
# The layout of a circuit

Every wire of a circuit is a line of vertices from its input to its output. Records, ports, edges,
anchors and the parameter table each tell something about these lines. `Layout` is the invariant
that they all tell the same.
-/

set_option autoImplicit false

namespace CircuitDag

/-- Some order of the vertices agrees with all lines. -/
def Orderly (line : WireId → List VertexId) : Prop :=
  ∃ order : List VertexId, order.Nodup ∧ ∀ w, (line w).Sublist order

/-- The circuit that an edit leaves behind, whether it succeeds or fails. -/
def Edit.after {α : Type} (edit : Edit α) (c : Circuit) : Circuit :=
  match edit.run c with
  | .ok _ c' => c'
  | .error _ c' => c'

namespace Circuit

variable {c c' : Circuit} {line : WireId → List VertexId} {side : Side} {u v : VertexId}
  {w : WireId} {r : Record}

def anchors (c : Circuit) : Side → Array VertexId
  | .incoming => c.inputs
  | .outgoing => c.outputs

/-- A vertex next to another one on a line, before or behind it. -/
def Beside (l : List VertexId) : Side → VertexId → VertexId → Prop
  | .incoming, v, x => Adjacent l x v
  | .outgoing, v, x => Adjacent l v x

theorem Beside.unique {l : List VertexId} {x y : VertexId} (distinct : l.Nodup)
    (first : Beside l side v x) (second : Beside l side v y) : x = y := by
  cases side with
  | incoming => exact Adjacent.left_unique first second distinct
  | outgoing => exact Adjacent.right_unique first second distinct

theorem Beside.mem {l : List VertexId} {x : VertexId} (beside : Beside l side v x) :
    v ∈ l ∧ x ∈ l := by
  cases side with
  | incoming => exact ⟨Adjacent.mem_right beside, Adjacent.mem_left beside⟩
  | outgoing => exact ⟨Adjacent.mem_left beside, Adjacent.mem_right beside⟩

def tip? (l : List VertexId) : Side → Option VertexId
  | .incoming => l.head?
  | .outgoing => l.getLast?

theorem mem_of_tip? {l : List VertexId} (tip : tip? l side = some v) : v ∈ l := by
  cases side with
  | incoming => exact List.mem_of_head? tip
  | outgoing => exact List.mem_of_getLast? tip

/-- The wires of a vertex are as they should be: there are some, no wire is repeated, all are in
range, and the quantum wires come first. -/
structure Wired (c : Circuit) (r : Record) : Prop where
  nonempty : r.wires ≠ []
  nodup : r.wires.Nodup
  placed : ∀ i w, r.wires[i]? = some w → w < c.numWires ∧ (i < r.numQuantum ↔ w < c.numQubits)

theorem Wired.quantum (wired : c.Wired r) : ∀ w ∈ r.quantumWires, w < c.numQubits := by
  intro w member
  obtain ⟨i, position⟩ := List.getElem?_of_mem member
  rw [Record.quantumWires, List.getElem?_take] at position
  split at position
  · next quantum => exact (wired.placed i w position).2.mp quantum
  · cases position

theorem Wired.classical (wired : c.Wired r) :
    ∀ w ∈ r.classicalWires, c.numQubits ≤ w ∧ w < c.numWires := by
  intro w member
  obtain ⟨i, position⟩ := List.getElem?_of_mem member
  rw [Record.classicalWires, List.getElem?_drop] at position
  obtain ⟨bound, kind⟩ := wired.placed _ w position
  exact ⟨Nat.le_of_not_lt fun quantum => Nat.not_lt_of_le (Nat.le_add_right ..)
    (kind.mpr quantum), bound⟩

/-- Ports and edges follow the lines. -/
structure Threaded (c : Circuit) (line : WireId → List VertexId) : Prop where
  shaped : c.records.Shaped
  strung : ∀ w, c.records.Strung w (line w)
  traced : c.graph.Traces line
  slotted : c.graph.Slotted
  numVertices : c.graph.numVertices = c.records.size

/-- Wires of vertices and anchors follow the lines. Nothing here depends on ports. -/
structure Seated (c : Circuit) (line : WireId → List VertexId) : Prop where
  wired : ∀ v r, c.records.Live v r → c.Wired r
  retired : ∀ v r, c.records.get? v = some r → r.removed = true → r.wires = []
  covered : ∀ v w, c.records.Carries v w → v ∈ line w
  sizes : ∀ side, (c.anchors side).size = c.numWires
  tips : ∀ side w, tip? (line w) side = (c.anchors side)[w]?
  anchored : ∀ side w v, (c.anchors side)[w]? = some v →
    ∃ r, c.records.Live v r ∧ r.element = endElement side ∧ r.wires = [w]
  terminal : ∀ side v r, c.records.Live v r → r.element = endElement side →
    ∃ w ∈ r.wires, (c.anchors side)[w]? = some v

/-- The parameter table and the count of removed vertices are those of the records. -/
structure Tallied (c : Circuit) : Prop where
  coherent : c.params.Coherent
  indexed : c.params.Indexes c.records
  numRemoved : c.numRemoved = c.records.numTombstones

/-- The invariant of circuits. -/
structure Layout (c : Circuit) (line : WireId → List VertexId) : Prop extends
    Threaded c line, Seated c line, Tallied c where
  orderly : Orderly line

def LaidOut (c : Circuit) : Prop := ∃ line, c.Layout line

/-! ## Changes of ports and edges -/

/-- Only ports and edges differ between two circuits. -/
structure Rewired (c c' : Circuit) : Prop where
  frame : c' = { c with records := c'.records, graph := c'.graph }
  bare : c'.records.bare? = c.records.bare?
  size : c'.records.size = c.records.size

theorem Rewired.refl (c : Circuit) : c.Rewired c := ⟨rfl, rfl, rfl⟩

theorem Rewired.trans {c'' : Circuit} (first : c.Rewired c') (second : c'.Rewired c'') :
    c.Rewired c'' where
  frame := by rw [second.frame, first.frame]
  bare := second.bare.trans first.bare
  size := second.size.trans first.size

theorem rewired_connect (c : Circuit) (source target : Port) (wire : WireId) :
    c.Rewired (c.connect source target wire) :=
  ⟨rfl, Records.bare?_link .., Records.size_link ..⟩

theorem Rewired.params_eq (rewired : c.Rewired c') : c'.params = c.params := by
  rw [rewired.frame]

theorem Rewired.numRemoved_eq (rewired : c.Rewired c') : c'.numRemoved = c.numRemoved := by
  rw [rewired.frame]

/-- Two circuits that agree in everything that seats depend on. -/
structure SameSeats (c c' : Circuit) : Prop where
  bare : c'.records.bare? = c.records.bare?
  numQubits : c'.numQubits = c.numQubits
  numClbits : c'.numClbits = c.numClbits
  inputs : c'.inputs = c.inputs
  outputs : c'.outputs = c.outputs

theorem Rewired.sameSeats (rewired : c.Rewired c') : c.SameSeats c' where
  bare := rewired.bare
  numQubits := by rw [rewired.frame]
  numClbits := by rw [rewired.frame]
  inputs := by rw [rewired.frame]
  outputs := by rw [rewired.frame]

theorem SameSeats.numWires_eq (same : c.SameSeats c') : c'.numWires = c.numWires := by
  rw [numWires, same.numQubits, same.numClbits, numWires]

theorem SameSeats.anchors_eq (same : c.SameSeats c') : c'.anchors = c.anchors := by
  funext side
  cases side with
  | incoming => exact same.inputs
  | outgoing => exact same.outputs

theorem Wired.of_sameSeats (wired : c.Wired r) (same : c.SameSeats c') {s : Record}
    (agree : s.bare = r.bare) : c'.Wired s where
  nonempty := Record.wires_of_bare agree ▸ wired.nonempty
  nodup := Record.wires_of_bare agree ▸ wired.nodup
  placed := by
    rw [Record.wires_of_bare agree, Record.numQuantum_of_bare agree, same.numWires_eq,
      same.numQubits]
    exact wired.placed

theorem Seated.of_sameSeats (seated : c.Seated line) (same : c.SameSeats c') :
    c'.Seated line := by
  have before : ∀ v s, c'.records.Live v s → ∃ r, c.records.Live v r ∧ r.bare = s.bare :=
    fun v s live => Records.exists_live_of_bare? same.bare.symm live
  constructor
  · intro v s live
    obtain ⟨r, live, agree⟩ := before v s live
    exact (seated.wired v r live).of_sameSeats same agree.symm
  · intro v s found removed
    obtain ⟨r, found, agree⟩ := Records.exists_get?_of_bare? same.bare.symm found
    rw [← Record.wires_of_bare agree]
    exact seated.retired v r found ((Record.removed_of_bare agree).trans removed)
  · intro v w carries
    exact seated.covered v w (carries.of_bare? same.bare.symm)
  · intro side
    rw [same.anchors_eq, same.numWires_eq]
    exact seated.sizes side
  · intro side w
    rw [same.anchors_eq]
    exact seated.tips side w
  · intro side w v anchor
    rw [same.anchors_eq] at anchor
    obtain ⟨r, live, element, wires⟩ := seated.anchored side w v anchor
    obtain ⟨s, live, agree⟩ := Records.exists_live_of_bare? same.bare live
    exact ⟨s, live, (Record.element_of_bare agree).trans element,
      (Record.wires_of_bare agree).trans wires⟩
  · intro side v s live element
    obtain ⟨r, live, agree⟩ := before v s live
    rw [same.anchors_eq, ← Record.wires_of_bare agree]
    exact seated.terminal side v r live ((Record.element_of_bare agree).trans element)

theorem Tallied.of_rewired (tallied : c.Tallied) (rewired : c.Rewired c') : c'.Tallied where
  coherent := rewired.params_eq ▸ tallied.coherent
  indexed := rewired.params_eq ▸ tallied.indexed.congr rewired.bare
  numRemoved := by
    rw [rewired.numRemoved_eq, Records.numTombstones_congr rewired.bare rewired.size]
    exact tallied.numRemoved

/-! ## Lines -/

theorem Threaded.carries (threaded : c.Threaded line) (member : v ∈ line w) :
    c.records.Carries v w := (threaded.strung w).carried v member

theorem Threaded.joins_iff (threaded : c.Threaded line) :
    c.graph.Joins u v ↔ ∃ w, Adjacent (line w) u v := by
  simp only [Graph.Joins, ← threaded.traced.mem_iff, Graph.segments, List.mem_map]
  constructor
  · intro given
    obtain ⟨e, member, rfl, rfl⟩ := given
    exact ⟨e.wire, e, member, rfl⟩
  · intro given
    obtain ⟨w, e, member, segment⟩ := given
    simp only [Edge.segment, Prod.mk.injEq] at segment
    exact ⟨e, member, segment.1, segment.2.1⟩

theorem Threaded.lt_size (threaded : c.Threaded line) (member : v ∈ line w) :
    v < c.records.size := by
  obtain ⟨r, live, -⟩ := threaded.carries member
  exact live.lt_size

/-- The number of the next record is on no line. -/
theorem Threaded.ne_size (threaded : c.Threaded line) (member : v ∈ line w) : v ≠ c.records.size :=
  Nat.ne_of_lt (threaded.lt_size member)

theorem Threaded.closed (threaded : c.Threaded line) : c.graph.Closed := by
  intro e member
  obtain ⟨w, adjacent⟩ := threaded.joins_iff.mp ⟨e, member, rfl, rfl⟩
  rw [threaded.numVertices]
  exact ⟨threaded.lt_size adjacent.mem_left, threaded.lt_size adjacent.mem_right⟩

/-- In an order that agrees with all lines, edges lead forward. -/
theorem Threaded.acyclic (threaded : c.Threaded line) (orderly : Orderly line) :
    c.graph.Acyclic := by
  obtain ⟨order, unique, sublist⟩ := orderly
  refine Graph.acyclic_of_rank order.idxOf ?_
  intro s t joins
  obtain ⟨w, adjacent⟩ := threaded.joins_iff.mp joins
  obtain ⟨front, back, shape⟩ := adjacent
  have pair : [s, t].Sublist order := by
    refine List.Sublist.trans ?_ (sublist w)
    rw [shape]
    exact (((List.nil_sublist back).cons_cons t).cons_cons s).trans (List.sublist_append_right ..)
  obtain ⟨left, right, rfl, inLeft, inRight⟩ := List.cons_sublist_iff.mp pair
  have inRight : t ∈ right := List.singleton_sublist.mp inRight
  have fresh : t ∉ left := fun member =>
    (List.nodup_append.mp unique).2.2 t member t inRight rfl
  rw [List.idxOf_append_of_mem inLeft, List.idxOf_append_of_notMem fresh]
  have position := List.idxOf_lt_length_iff.mpr inLeft
  omega

theorem tip_or_beside {l : List VertexId} (member : v ∈ l) (side : Side) :
    tip? l side = some v ∨ ∃ x, Beside l side v x := by
  cases side with
  | incoming => exact exists_adjacent_left member
  | outgoing => exact exists_adjacent_right member

theorem Beside.tip?_ne {l : List VertexId} {x : VertexId} (beside : Beside l side v x)
    (unique : l.Nodup) : tip? l side ≠ some v := by
  cases side with
  | incoming => exact Adjacent.head?_ne beside unique
  | outgoing => exact Adjacent.getLast?_ne beside unique

theorem Layout.mem_line_iff (layout : c.Layout line) : v ∈ line w ↔ c.records.Carries v w :=
  ⟨layout.carries, layout.covered v w⟩

/-- The end of a line is an anchor on that wire alone. -/
theorem Seated.live_of_tip? (seated : c.Seated line) (tip : tip? (line w) side = some v) :
    ∃ r, c.records.Live v r ∧ r.element = endElement side ∧ r.wires = [w] := by
  rw [seated.tips] at tip
  exact seated.anchored side w v tip

theorem exists_endElement (anchor : r.isAnchor = true) : ∃ side, r.element = endElement side := by
  rw [Record.isAnchor] at anchor
  cases element : r.element with
  | input => exact ⟨.incoming, rfl⟩
  | output => exact ⟨.outgoing, rfl⟩
  | _ =>
      rw [element] at anchor
      cases anchor

theorem Seated.inner (seated : c.Seated line) (live : c.records.Live v r)
    (operation : r.isAnchor = false) (member : v ∈ line w) :
    ∃ front a b back, line w = front ++ a :: v :: b :: back := by
  have inside : ∀ side, tip? (line w) side ≠ some v := by
    intro side tip
    obtain ⟨s, live', element, -⟩ := seated.live_of_tip? tip
    rw [live'.unique live] at element
    rw [Record.isAnchor, element] at operation
    cases side <;> cases operation
  obtain ⟨front, rest, shape⟩ := List.append_of_mem member
  rcases List.eq_nil_or_concat front with rfl | ⟨front, a, rfl⟩
  · exact absurd (by rw [shape]; rfl) (inside .incoming)
  · cases rest with
    | nil => exact absurd (by rw [shape]; exact List.getLast?_concat ..) (inside .outgoing)
    | cons b back => exact ⟨front, a, b, back, by simp [shape]⟩

/-- A vertex on a line has a neighbour on each side on which it is not the end of the line. -/
theorem Seated.exists_beside (seated : c.Seated line) (live : c.records.Live v r)
    (member : v ∈ line w) (side : Side) (other : r.element ≠ endElement side) :
    ∃ x, Beside (line w) side v x := by
  rcases tip_or_beside member side with tip | beside
  · obtain ⟨s, live', element, -⟩ := seated.live_of_tip? tip
    obtain rfl := live.unique live'
    exact absurd element other
  · exact beside

theorem Threaded.facing_of_beside {x : VertexId} (threaded : c.Threaded line)
    (beside : Beside (line w) side v x) :
    c.records.facing side (c.records.portOn w v) = some (c.records.portOn w x) := by
  cases side with
  | incoming => exact (threaded.strung w).incoming x v beside
  | outgoing => exact (threaded.strung w).outgoing v x beside

theorem Threaded.facing_of_tip? (threaded : c.Threaded line) (tip : tip? (line w) side = some v) :
    c.records.facing side (c.records.portOn w v) = none := by
  cases side with
  | incoming => exact (threaded.strung w).first v tip
  | outgoing => exact (threaded.strung w).last v tip

/-- The port of a live vertex on a wire leads to its neighbour on the line, if it has one. -/
theorem Layout.port?_cases (layout : c.Layout line) (live : c.records.Live v r) {i : Nat}
    (position : r.wires[i]? = some w) (side : Side) :
    (tip? (line w) side = some v ∧ r.port? side i = none) ∨
      ∃ x, Beside (line w) side v x ∧ r.port? side i = some (c.records.portOn w x) := by
  have member : v ∈ line w := layout.covered v w ⟨r, live, List.mem_of_getElem? position⟩
  rw [← Records.facing_portOn live (layout.wired v r live).nodup position]
  rcases tip_or_beside member side with tip | ⟨x, beside⟩
  · exact .inl ⟨tip, layout.facing_of_tip? tip⟩
  · exact .inr ⟨x, beside, layout.facing_of_beside beside⟩

theorem Layout.mem_neighbors_iff (layout : c.Layout line) (live : c.records.Live v r)
    {x : VertexId} : x ∈ r.neighbors side ↔ ∃ w ∈ r.wires, Beside (line w) side v x := by
  have ports : (r.ports side).length = r.wires.length := layout.shaped.length_ports v r live.1 side
  simp only [Record.neighbors, List.mem_filterMap, Option.map_eq_some_iff]
  constructor
  · intro given
    obtain ⟨_, member, port, rfl, rfl⟩ := given
    obtain ⟨i, found⟩ := List.getElem?_of_mem member
    have bound : i < r.wires.length := ports ▸ (List.getElem?_eq_some_iff.mp found).1
    have led : r.port? side i = some port := Option.join_eq_some_iff.mpr found
    rcases layout.port?_cases live (List.getElem?_eq_getElem bound) side with
      ⟨-, free⟩ | ⟨y, beside, led'⟩
    · cases led.symm.trans free
    · cases led.symm.trans led'
      exact ⟨_, List.getElem_mem bound, beside⟩
  · intro given
    obtain ⟨w, member, beside⟩ := given
    obtain ⟨i, position⟩ := List.getElem?_of_mem member
    rcases layout.port?_cases live position side with ⟨tip, -⟩ | ⟨y, beside', led⟩
    · exact absurd tip (beside.tip?_ne (layout.strung w).nodup)
    · obtain rfl := beside.unique (layout.strung w).nodup beside'
      exact ⟨_, List.mem_of_getElem? (Option.join_eq_some_iff.mp led), _, rfl, rfl⟩

theorem Seated.line_eq_nil (seated : c.Seated line) (beyond : c.numWires ≤ w) : line w = [] := by
  have tip := seated.tips .incoming w
  rw [Array.getElem?_eq_none (by rw [seated.sizes]; exact beyond)] at tip
  exact List.head?_eq_none_iff.mp tip

end Circuit

end CircuitDag
