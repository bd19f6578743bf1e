import CircuitDag.Proofs.Circuit.Layout
import CircuitDag.Proofs.Records.Walk

/-!
# Well-formed circuits

What it means for a circuit to be in order, told without lines: anchors, wires, ports, edges, walks
and the parameter table all agree. A circuit that follows lines is well formed.
-/

set_option autoImplicit false

namespace CircuitDag.Circuit

variable {c : Circuit} {line : WireId → List VertexId} {side : Side} {u v : VertexId} {w : WireId}
  {r : Record}

/-- The record of a live vertex tells that another vertex comes right before it on a wire. -/
def Precedes (c : Circuit) (u v : VertexId) (w : WireId) : Prop :=
  ∃ r i j, c.records.Live v r ∧ r.wires[i]? = some w ∧ r.port? .incoming i = some ⟨u, j⟩

/-- The anchors of a wire are the only live vertices with their element on it, and are on no other
wire. -/
structure AnchorsAgree (c : Circuit) : Prop where
  sizes : ∀ side, (c.anchors side).size = c.numWires
  anchor_iff : ∀ side w v, (c.anchors side)[w]? = some v ↔
    ∃ r, c.records.Live v r ∧ r.element = endElement side ∧ w ∈ r.wires
  alone : ∀ side v r, c.records.Live v r → r.element = endElement side → ∃ w, r.wires = [w]

/-- At every wire position of a live vertex there is a port exactly if the vertex is not the anchor
of that side, and it leads to a port on the same wire that leads back. -/
structure PortsAgree (c : Circuit) : Prop where
  absent_iff : ∀ v r i w side, c.records.Live v r → r.wires[i]? = some w →
    (r.port? side i = none ↔ r.element = endElement side)
  inverse : ∀ v r i w side port, c.records.Live v r → r.wires[i]? = some w →
    r.port? side i = some port → ∃ s, c.records.Live port.vertex s ∧
      s.wires[port.index]? = some w ∧ s.port? side.opposite port.index = some ⟨v, i⟩

/-- The edges are the pairs of neighbours on wires, each of them once, without a cycle. -/
structure EdgesAgree (c : Circuit) : Prop where
  nodup : c.graph.segments.Nodup
  mem_iff : ∀ u v w, (u, v, w) ∈ c.graph.segments ↔ c.Precedes u v w
  acyclic : c.graph.Acyclic

/-- The walk along a wire from its input meets every vertex on the wire once and ends at the
output. -/
structure WalksCover (c : Circuit) : Prop where
  nodup : ∀ w, (c.wireVertices w).Nodup
  mem_iff : ∀ w, w < c.numWires → ∀ v, v ∈ c.wireVertices w ↔ c.records.Carries v w
  ends : ∀ w v, c.output? w = some v → (c.wireVertices w).getLast? = some v

/-- A circuit in which everything agrees. -/
structure WellFormed (c : Circuit) : Prop where
  anchors : c.AnchorsAgree
  wired : ∀ v r, c.records.Live v r → c.Wired r
  wireless : ∀ v r, c.records.get? v = some r → r.removed = true → r.wires = []
  edgeless : ∀ v r, c.records.get? v = some r → r.removed = true →
    ∀ e ∈ c.graph.edges, e.source ≠ v ∧ e.target ≠ v
  ports : c.PortsAgree
  edges : c.EdgesAgree
  walks : c.WalksCover
  params : c.params.Indexes c.records

/-! ## Lines make circuits well formed -/

theorem Seated.anchor_iff (seated : c.Seated line) :
    (c.anchors side)[w]? = some v ↔
      ∃ r, c.records.Live v r ∧ r.element = endElement side ∧ w ∈ r.wires := by
  constructor
  · intro anchor
    obtain ⟨r, live, element, wires⟩ := seated.anchored side w v anchor
    exact ⟨r, live, element, by simp [wires]⟩
  · intro given
    obtain ⟨r, live, element, member⟩ := given
    obtain ⟨x, -, anchor⟩ := seated.terminal side v r live element
    obtain ⟨s, live', -, wires⟩ := seated.anchored side x v anchor
    obtain rfl := live.unique live'
    rw [wires, List.mem_singleton] at member
    rwa [member]

theorem Seated.anchorsAgree (seated : c.Seated line) : c.AnchorsAgree where
  sizes := seated.sizes
  anchor_iff _ _ _ := seated.anchor_iff
  alone side v r live element := by
    obtain ⟨x, -, anchor⟩ := seated.terminal side v r live element
    obtain ⟨s, live', -, wires⟩ := seated.anchored side x v anchor
    exact ⟨x, live.unique live' ▸ wires⟩

theorem Seated.tip_iff (seated : c.Seated line) (live : c.records.Live v r) (member : w ∈ r.wires) :
    tip? (line w) side = some v ↔ r.element = endElement side := by
  rw [seated.tips, seated.anchor_iff]
  constructor
  · intro given
    obtain ⟨s, live', element, -⟩ := given
    rwa [live.unique live']
  · intro element
    exact ⟨r, live, element, member⟩

theorem Layout.portsAgree (layout : c.Layout line) : c.PortsAgree where
  absent_iff v r i w side live position := by
    rw [← layout.tip_iff live (List.mem_of_getElem? position)]
    rcases layout.port?_cases live position side with ⟨tip, free⟩ | ⟨x, beside, led⟩
    · exact iff_of_true free tip
    · refine iff_of_false (by simp [led]) ?_
      exact beside.tip?_ne (layout.strung w).nodup
  inverse v r i w side port live position led := by
    rcases layout.port?_cases live position side with ⟨-, free⟩ | ⟨x, beside, led'⟩
    · cases free.symm.trans led
    · obtain rfl := Option.some.inj (led.symm.trans led')
      obtain ⟨s, live', member⟩ := layout.carries beside.mem.2
      have back : Beside (line w) side.opposite x v := by
        cases side <;> exact beside
      have position' : s.wires[s.wires.idxOf w]? = some w :=
        List.getElem?_idxOf member
      rw [Records.portOn_eq live'.1]
      refine ⟨s, live', position', ?_⟩
      rcases layout.port?_cases live' position' side.opposite with ⟨tip, -⟩ | ⟨y, beside', led''⟩
      · exact absurd tip (back.tip?_ne (layout.strung w).nodup)
      · obtain rfl := back.unique (layout.strung w).nodup beside'
        rw [led'', Records.portOn_of_getElem? live.1 (layout.wired _ _ live).nodup position]

/-- Neighbours on lines are those that the records tell. -/
theorem Layout.adjacent_iff (layout : c.Layout line) :
    Adjacent (line w) u v ↔ c.Precedes u v w := by
  constructor
  · intro adjacent
    obtain ⟨r, live, member⟩ := layout.carries adjacent.mem_right
    have position : r.wires[r.wires.idxOf w]? = some w := List.getElem?_idxOf member
    rcases layout.port?_cases live position .incoming with ⟨tip, -⟩ | ⟨x, beside, led⟩
    · exact absurd tip (adjacent.head?_ne (layout.strung w).nodup)
    · obtain rfl : u = x := adjacent.left_unique beside (layout.strung w).nodup
      exact ⟨r, _, (c.records.portOn w u).index, live, position, led⟩
  · intro given
    obtain ⟨r, i, j, live, position, led⟩ := given
    rcases layout.port?_cases live position .incoming with ⟨-, free⟩ | ⟨x, beside, led'⟩
    · cases free.symm.trans led
    · have same : (⟨u, j⟩ : Port) = c.records.portOn w x :=
        Option.some.inj (led.symm.trans led')
      obtain rfl : u = x := congrArg Port.vertex same
      exact beside

theorem Layout.edgesAgree (layout : c.Layout line) : c.EdgesAgree where
  nodup := layout.traced.nodup
  mem_iff u v w := (layout.traced.mem_iff u v w).trans layout.adjacent_iff
  acyclic := layout.toThreaded.acyclic layout.orderly

theorem Layout.wireVertices_eq (layout : c.Layout line) (w : WireId) :
    c.wireVertices w = line w := by
  have tip : (line w).head? = c.input? w := layout.tips .incoming w
  rw [wireVertices]
  cases start : c.input? w with
  | none => exact (List.head?_eq_none_iff.mp (tip.trans start)).symm
  | some v => exact (layout.strung w).wireVertices_eq (tip.trans start)

theorem Layout.neighborOn_eq_ok_iff (layout : c.Layout line) {side : Side} {x : VertexId} :
    c.neighborOn side v w = .ok x ↔ Beside (line w) side v x := by
  by_cases carries : c.records.Carries v w
  · obtain ⟨r, live, member⟩ := id carries
    have position : r.wires[r.wires.idxOf w]? = some w := List.getElem?_idxOf member
    have unique := (layout.strung w).nodup
    rw [neighborOn, Records.neighbor_of_carries carries,
      Records.facing_portOn live (layout.wired v r live).nodup position]
    rcases layout.port?_cases live position side with ⟨tip, free⟩ | ⟨y, beside, led⟩
    · rw [free]
      exact iff_of_false nofun fun beside => beside.tip?_ne unique tip
    · rw [led]
      simp only [Except.map, Records.portOn_vertex, Except.ok.injEq]
      constructor
      · intro same
        obtain rfl := same
        exact beside
      · exact fun beside' => beside.unique unique beside'
  · refine iff_of_false (fun found => carries ?_) fun beside =>
      carries (layout.carries beside.mem.1)
    rw [neighborOn, Records.neighbor] at found
    cases index : c.records.wireIndex v w with
    | error cause =>
        rw [index] at found
        cases found
    | ok i =>
        obtain ⟨r, lookup, member, -⟩ := Records.wireIndex_eq_ok_iff.mp index
        refine ⟨r, ⟨lookup, ?_⟩, member⟩
        rw [Bool.eq_false_iff]
        intro removed
        rw [layout.retired v r lookup removed] at member
        cases member

theorem Layout.walksCover (layout : c.Layout line) : c.WalksCover where
  nodup w := layout.wireVertices_eq w ▸ (layout.strung w).nodup
  mem_iff w _ v := by rw [layout.wireVertices_eq, layout.mem_line_iff]
  ends w v output := by
    rw [layout.wireVertices_eq]
    exact (layout.tips .outgoing w).trans output

theorem Layout.wellFormed (layout : c.Layout line) : c.WellFormed where
  anchors := layout.toSeated.anchorsAgree
  wired := layout.wired
  wireless := layout.retired
  edgeless v r found removed e member := by
    obtain ⟨w, adjacent⟩ := layout.joins_iff.mp ⟨e, member, rfl, rfl⟩
    obtain ⟨s, live, -⟩ := layout.carries adjacent.mem_left
    obtain ⟨t, live', -⟩ := layout.carries adjacent.mem_right
    constructor
    · intro same
      obtain rfl := same
      obtain rfl := Option.some.inj (live.1.symm.trans found)
      cases live.2.symm.trans removed
    · intro same
      obtain rfl := same
      obtain rfl := Option.some.inj (live'.1.symm.trans found)
      cases live'.2.symm.trans removed
  ports := layout.portsAgree
  edges := layout.edgesAgree
  walks := layout.walksCover
  params := layout.indexed

end CircuitDag.Circuit
