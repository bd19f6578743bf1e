import CircuitDag.Proofs.Circuit.Layout
import CircuitDag.Proofs.Records.Numbering

/-!
# Compaction

Compacting a circuit gives all vertices on its lines new numbers and changes nothing else, so the
lines of the compacted circuit are the renumbered ones.
-/

set_option autoImplicit false

namespace CircuitDag

namespace Graph

variable {g : Graph} {target? : VertexId → Option VertexId} {moved : VertexId → VertexId}

theorem foldl_renumber (es : List Edge)
    (agrees : ∀ e ∈ es, target? e.source = some (moved e.source) ∧
      target? e.target = some (moved e.target)) {out : Graph} (slotted : out.Slotted) :
    let result := es.foldl (fun out e =>
      match target? e.source, target? e.target with
      | some s, some t => out.addEdge s t e.wire
      | _, _ => out) out
    result.segments =
        (es.map fun e => (moved e.source, moved e.target, e.wire)).reverse ++ out.segments ∧
      result.numVertices = out.numVertices ∧ result.Slotted := by
  induction es generalizing out with
  | nil => exact ⟨rfl, rfl, slotted⟩
  | cons e es ih =>
      obtain ⟨source, target⟩ := agrees e List.mem_cons_self
      simp only [List.foldl_cons, source, target]
      obtain ⟨segments, size, slotted⟩ := ih
        (fun e member => agrees e (List.mem_cons_of_mem _ member))
        (slotted.addEdge (moved e.source) (moved e.target) e.wire)
      exact ⟨by simpa using segments, size, slotted⟩

/-- If all ends of edges are kept, the renumbered graph has the renumbered edges. -/
theorem renumber_spec (slotted : g.Slotted) (numVertices : Nat)
    (agrees : ∀ e ∈ g.edges, target? e.source = some (moved e.source) ∧
      target? e.target = some (moved e.target)) :
    (g.renumber numVertices target?).segments.Perm
        (g.segments.map fun (s, t, w) => (moved s, moved t, w)) ∧
      (g.renumber numVertices target?).numVertices = numVertices ∧
      (g.renumber numVertices target?).Slotted := by
  have same := slotted.edgesBySlot_perm
  obtain ⟨segments, size, slotted⟩ := foldl_renumber g.edgesBySlot
    (fun e member => agrees e (same.mem_iff.mp member)) (slotted_empty numVertices)
  have segments : (g.renumber numVertices target?).segments =
      (g.edgesBySlot.map fun e => (moved e.source, moved e.target, e.wire)).reverse ++ [] :=
    segments
  refine ⟨?_, size, slotted⟩
  rw [segments, List.append_nil, Graph.segments, List.map_map]
  exact (List.reverse_perm _).trans (same.map _)

end Graph

namespace Circuit

variable {c : Circuit} {line : WireId → List VertexId}

theorem tip?_map (moved : VertexId → VertexId) (l : List VertexId) (side : Side) :
    tip? (l.map moved) side = (tip? l side).map moved := by
  cases side with
  | incoming => exact List.head?_map
  | outgoing => exact List.getLast?_map

/-- The new numbers as a function, the others as they are. -/
def newNumber (c : Circuit) (v : VertexId) : VertexId :=
  ((VertexMap.ofRecords c.records).get? v).getD v

def compacted (c : Circuit) : Circuit := c.renumber (VertexMap.ofRecords c.records)

theorem compact_run (c : Circuit) :
    compact.run c = .ok (VertexMap.ofRecords c.records) c.compacted := rfl

theorem newNumber_eq {v k : VertexId}
    (kept : (VertexMap.ofRecords c.records).get? v = some k) : c.newNumber v = k := by
  rw [newNumber, kept]
  rfl

theorem newNumber_spec {v : VertexId} {r : Record} (live : c.records.Live v r) :
    (VertexMap.ofRecords c.records).get? v = some (c.newNumber v) := by
  obtain ⟨k, kept⟩ := (Records.moves_renumber c.records).total v r live
  rw [newNumber_eq kept, kept]

theorem newNumber_injective {u v : VertexId} {r s : Record} (left : c.records.Live u r)
    (right : c.records.Live v s) (same : c.newNumber u = c.newNumber v) : u = v :=
  (Records.moves_renumber c.records).injective u v (c.newNumber u) (newNumber_spec left)
    (same ▸ newNumber_spec right)

theorem compacted_live {v : VertexId} {r : Record} (live : c.records.Live v r) :
    c.compacted.records.Live (c.newNumber v)
      (r.renumber (VertexMap.ofRecords c.records).get?) := by
  obtain ⟨s, live', moved⟩ := (Records.moves_renumber c.records).old v _ (newNumber_spec live)
  rw [live.unique live']
  exact moved

theorem exists_of_compacted {k : VertexId} {s : Record}
    (found : c.compacted.records.get? k = some s) :
    ∃ v r, c.records.Live v r ∧ c.newNumber v = k ∧
      s = r.renumber (VertexMap.ofRecords c.records).get? := by
  obtain ⟨v, r, kept, live, shape⟩ := (Records.moves_renumber c.records).new k s found
  exact ⟨v, r, live, newNumber_eq kept, shape⟩

theorem Threaded.live (threaded : c.Threaded line) {v : VertexId} {w : WireId}
    (member : v ∈ line w) : ∃ r, c.records.Live v r := by
  obtain ⟨r, live, -⟩ := threaded.carries member
  exact ⟨r, live⟩

theorem Threaded.numbered (threaded : c.Threaded line) {v : VertexId} {w : WireId}
    (member : v ∈ line w) : (VertexMap.ofRecords c.records).get? v = some (c.newNumber v) := by
  obtain ⟨r, live⟩ := threaded.live member
  exact newNumber_spec live

/-- Both ends of an edge get new numbers. -/
theorem Threaded.numbered_edge (threaded : c.Threaded line) {e : Edge}
    (member : e ∈ c.graph.edges) :
    (VertexMap.ofRecords c.records).get? e.source = some (c.newNumber e.source) ∧
      (VertexMap.ofRecords c.records).get? e.target = some (c.newNumber e.target) := by
  obtain ⟨w, adjacent⟩ := threaded.joins_iff.mp ⟨e, member, rfl, rfl⟩
  exact ⟨threaded.numbered adjacent.mem_left, threaded.numbered adjacent.mem_right⟩

theorem Threaded.newNumber_injective (threaded : c.Threaded line) {u v : VertexId} {w x : WireId}
    (left : u ∈ line w) (right : v ∈ line x) (same : c.newNumber u = c.newNumber v) : u = v := by
  obtain ⟨r, live⟩ := threaded.live left
  obtain ⟨s, live'⟩ := threaded.live right
  exact Circuit.newNumber_injective live live' same

theorem Threaded.compact (threaded : c.Threaded line) :
    c.compacted.Threaded fun w => (line w).map c.newNumber := by
  have moves := Records.moves_renumber c.records
  obtain ⟨segments, size, slotted⟩ := Graph.renumber_spec threaded.slotted
    (VertexMap.ofRecords c.records).numKept fun e member => threaded.numbered_edge member
  constructor
  · exact moves.shaped threaded.shaped
  · intro w
    exact moves.strung (threaded.strung w) fun v member => threaded.numbered member
  · constructor
    · refine segments.nodup_iff.mpr (threaded.traced.nodup.map_on ?_)
      intro given member given' member' same
      obtain ⟨s, t, w⟩ := given
      obtain ⟨s', t', w'⟩ := given'
      simp only [Prod.mk.injEq] at same
      have adjacent := (threaded.traced.mem_iff ..).mp member
      have adjacent' := (threaded.traced.mem_iff ..).mp member'
      rw [threaded.newNumber_injective adjacent.mem_left adjacent'.mem_left same.1,
        threaded.newNumber_injective adjacent.mem_right adjacent'.mem_right same.2.1, same.2.2]
    · intro s t w
      rw [adjacent_map]
      refine segments.mem_iff.trans ?_
      rw [List.mem_map]
      constructor
      · intro given
        obtain ⟨⟨u, v, x⟩, member, same⟩ := given
        simp only [Prod.mk.injEq] at same
        obtain ⟨rfl, rfl, rfl⟩ := same
        exact ⟨u, v, (threaded.traced.mem_iff ..).mp member, rfl, rfl⟩
      · intro given
        obtain ⟨u, v, adjacent, rfl, rfl⟩ := given
        exact ⟨(u, v, w), (threaded.traced.mem_iff ..).mpr adjacent, rfl⟩
  · exact slotted
  · exact size.trans (Records.numKept_ofRecords ..)

theorem anchors_compacted (c : Circuit) (side : Side) :
    c.compacted.anchors side = (c.anchors side).map c.newNumber := by
  cases side <;> rfl

theorem Seated.compact (seated : c.Seated line) :
    c.compacted.Seated fun w => (line w).map c.newNumber := by
  constructor
  · intro k s moved
    obtain ⟨v, r, live, -, rfl⟩ := exists_of_compacted moved.1
    have wired := seated.wired v r live
    exact ⟨wired.nonempty, wired.nodup, wired.placed⟩
  · intro k s found removed
    cases ((Records.moves_renumber c.records).live found).2.symm.trans removed
  · intro k w given
    obtain ⟨s, moved, member⟩ := given
    obtain ⟨v, r, live, rfl, rfl⟩ := exists_of_compacted moved.1
    exact List.mem_map_of_mem (seated.covered v w ⟨r, live, member⟩)
  · intro side
    rw [anchors_compacted, Array.size_map]
    exact seated.sizes side
  · intro side w
    rw [anchors_compacted, tip?_map, seated.tips, Array.getElem?_map]
  · intro side w k anchor
    rw [anchors_compacted, Array.getElem?_map, Option.map_eq_some_iff] at anchor
    obtain ⟨v, anchor, rfl⟩ := anchor
    obtain ⟨r, live, element, wires⟩ := seated.anchored side w v anchor
    exact ⟨_, compacted_live live, element, wires⟩
  · intro side k s moved element
    obtain ⟨v, r, live, rfl, rfl⟩ := exists_of_compacted moved.1
    obtain ⟨w, member, anchor⟩ := seated.terminal side v r live element
    refine ⟨w, member, ?_⟩
    rw [anchors_compacted, Array.getElem?_map, anchor]
    rfl

theorem Tallied.compact (tallied : c.Tallied) : c.compacted.Tallied := by
  have moves := Records.moves_renumber c.records
  constructor
  · exact tallied.coherent.renumber moves.injective
  · intro given p
    obtain ⟨k, position⟩ := given
    refine (tallied.coherent.holds_renumber moves.injective).trans ?_
    constructor
    · intro given
      obtain ⟨⟨v, _⟩, holds, renumbered⟩ := given
      obtain ⟨x, kept, same⟩ := Option.map_eq_some_iff.mp renumbered
      simp only [ParamSlot.mk.injEq] at same kept
      obtain ⟨rfl, rfl⟩ := same
      obtain ⟨symbolic, -, found⟩ := (tallied.indexed _ p).mp holds
      obtain ⟨r, live, live'⟩ := moves.old v x kept
      refine ⟨symbolic, Records.isLive_of_live live', ?_⟩
      rw [Records.param?_eq live.1] at found
      exact (Records.param?_eq live'.1 _).trans found
    · intro given
      obtain ⟨symbolic, live, found⟩ := given
      obtain ⟨s, live⟩ := Records.isLive_iff.mp live
      obtain ⟨v, r, kept, live', rfl⟩ := moves.new k s live.1
      refine ⟨⟨v, position⟩, (tallied.indexed _ p).mpr ⟨symbolic, Records.isLive_of_live live', ?_⟩,
        by simp [ParamSlot.renumber?, kept]⟩
      rw [Records.param?_eq live.1] at found
      exact (Records.param?_eq live'.1 _).trans found
  · exact moves.numTombstones.symm

theorem Layout.orderly_compact (layout : c.Layout line) :
    Orderly fun w => (line w).map c.newNumber := by
  obtain ⟨order, unique, sublist⟩ := layout.orderly
  refine ⟨(order.filter c.records.isLive).map c.newNumber, ?_, ?_⟩
  · refine (unique.filter _).map_on fun u left v right same => ?_
    obtain ⟨r, live⟩ := Records.isLive_iff.mp (List.mem_filter.mp left).2
    obtain ⟨s, live'⟩ := Records.isLive_iff.mp (List.mem_filter.mp right).2
    exact newNumber_injective live live' same
  · intro w
    have kept : (line w).filter c.records.isLive = line w := by
      refine List.filter_eq_self.mpr fun v member => ?_
      obtain ⟨r, live⟩ := layout.toThreaded.live member
      exact Records.isLive_of_live live
    exact (kept ▸ (sublist w).filter _).map _

theorem Layout.compact (layout : c.Layout line) :
    c.compacted.Layout fun w => (line w).map c.newNumber :=
  ⟨layout.toThreaded.compact, layout.toSeated.compact, layout.toTallied.compact,
    layout.orderly_compact⟩

theorem LaidOut.compact (laid : c.LaidOut) : (Circuit.compact.after c).LaidOut := by
  obtain ⟨line, layout⟩ := laid
  exact ⟨_, layout.compact⟩

end Circuit

end CircuitDag
