import CircuitDag.Proofs.Circuit.Contiguity

/-!
# Compaction renames

Compaction drops the records of removed vertices and gives the others the numbers from zero on, in
order. Nothing that is left refers to a removed vertex, so wherever a vertex is mentioned it is
mentioned afterwards by its new number, and nothing else is lost. A block can be named by its old
numbers through the map.
-/

set_option autoImplicit false

namespace CircuitDag

namespace VertexMap

variable (m : VertexMap)

/-- The same wire position after its vertex has got a new number. -/
def SendsPort (p q : Port) : Prop := m.get? p.vertex = some q.vertex ∧ q.index = p.index

/-- The same parameter position after its vertex has got a new number. -/
def SendsSlot (a b : ParamSlot) : Prop := m.get? a.vertex = some b.vertex ∧ b.position = a.position

/-- The same edge after its ends have got new numbers. -/
def SendsSegment (s t : VertexId × VertexId × WireId) : Prop :=
  m.get? s.1 = some t.1 ∧ m.get? s.2.1 = some t.2.1 ∧ t.2.2 = s.2.2

/-- The same record after the vertices in its ports have got new numbers. -/
structure SendsRecord (r s : Record) : Prop where
  operation : s.operation = r.operation
  wires : s.wires = r.wires
  numQuantum : s.numQuantum = r.numQuantum
  ports : ∀ side, List.Forall₂ (Option.Rel m.SendsPort) (r.ports side) (s.ports side)

/-- The same parameter at the same slots after their vertices have got new numbers. -/
def SendsEntry (e f : ParamEntry) : Prop :=
  f.param = e.param ∧ ∃ moved, List.Forall₂ m.SendsSlot e.slots moved ∧ f.slots.Perm moved

/-- The same use of a parameter after its vertex has got a new number. -/
def SendsUse (a b : ParamUse) : Prop := b.id = a.id ∧ m.SendsSlot a.slot b.slot

end VertexMap

/-- What a map is defined on is mapped one by one. -/
theorem forall₂_filterMap {α β : Type} {f : α → Option β} {l : List α}
    (total : ∀ x ∈ l, ∃ y, f x = some y) :
    List.Forall₂ (fun x y => f x = some y) l (l.filterMap f) := by
  induction l with
  | nil => exact .nil
  | cons x l ih =>
      obtain ⟨⟨y, found⟩, rest⟩ := List.forall_mem_cons.mp total
      rw [List.filterMap_cons_some found]
      exact .cons found (ih rest)

namespace ParamTable

variable {t : ParamTable} {m : VertexMap}

theorem sendsSlot_iff {a b : ParamSlot} :
    m.SendsSlot a b ↔ a.renumber? m.get? = some b := by
  obtain ⟨v, i⟩ := a
  obtain ⟨k, j⟩ := b
  simp only [VertexMap.SendsSlot, ParamSlot.renumber?, Option.map_eq_some_iff, ParamSlot.mk.injEq]
  constructor
  · intro given
    obtain ⟨kept, rfl⟩ := given
    exact ⟨k, kept, rfl, rfl⟩
  · intro given
    obtain ⟨k, kept, rfl, rfl⟩ := given
    exact ⟨kept, rfl⟩

/-- If all slots are on vertices with new numbers, no parameter loses a slot. -/
theorem Coherent.sends (coherent : t.Coherent)
    (injective : ∀ u v x, m.get? u = some x → m.get? v = some x → u = v)
    (numbered : ∀ slot id, Occupied t.entries slot id → ∃ k, m.get? slot.vertex = some k) :
    List.Forall₂ m.SendsEntry t.entries (t.renumber m.get?).entries ∧
      List.Forall₂ m.SendsUse t.uses (t.renumber m.get?).uses := by
  have moves : ∀ slot id, Occupied t.entries slot id →
      ∃ moved, slot.renumber? m.get? = some moved := by
    intro slot id occupied
    obtain ⟨k, number⟩ := numbered slot id occupied
    exact ⟨⟨k, slot.position⟩, sendsSlot_iff.mp ⟨number, rfl⟩⟩
  constructor
  · refine List.forall₂_map_right_iff.mpr (List.forall₂_same.mpr fun e member => ⟨rfl, ?_⟩)
    obtain ⟨id, position⟩ := List.getElem?_of_mem member
    refine ⟨e.slots.filterMap (·.renumber? m.get?), ?_,
      coherent.slots_renumber_perm injective member⟩
    exact (forall₂_filterMap fun slot inside => moves slot id ⟨e, position, inside⟩).imp
      fun a b sent => sendsSlot_iff.mpr sent
  · refine (forall₂_filterMap fun use member => ?_).imp fun a b sent => ?_
    · obtain ⟨moved, sent⟩ := moves use.slot use.id ((coherent.mem_uses _ _).mp member)
      exact ⟨{ use with slot := moved }, by rw [sent]; rfl⟩
    · obtain ⟨slot, number, rfl⟩ := Option.map_eq_some_iff.mp sent
      exact ⟨rfl, sendsSlot_iff.mpr number⟩

end ParamTable

namespace Circuit

variable {c : Circuit} {line : WireId → List VertexId} {v : VertexId} {w : WireId} {r : Record}
  {block vs : List VertexId} {side : Side}

/-! ## What compaction does -/

/-- A map gives the live vertices the numbers from zero on, in order, and other vertices none. -/
structure Numbers (c : Circuit) (m : VertexMap) : Prop where
  defined_iff : ∀ v, (∃ k, m.get? v = some k) ↔ ∃ r, c.records.Live v r
  increasing : ∀ u v j k, m.get? u = some j → m.get? v = some k → u < v → j < k
  onto_iff : ∀ k, (∃ v, m.get? v = some k) ↔ k < c.numVertices

/-- A circuit whose vertices have new numbers and whose tombstones are gone. -/
structure Renamed (c : Circuit) (m : VertexMap) (c' : Circuit) : Prop where
  records : ∀ v r, c.records.Live v r → ∃ k s, m.get? v = some k ∧ c'.records.get? k = some s ∧
    m.SendsRecord r s
  size : c'.records.size = c.numVertices
  kept : ∀ v s, c'.records.get? v = some s → s.removed = false
  numRemoved : c'.numRemoved = 0
  anchors : ∀ side, List.Forall₂ (fun v k => m.get? v = some k) (c.anchors side).toList
    (c'.anchors side).toList
  segments : ∃ moved, List.Forall₂ m.SendsSegment c.graph.segments moved ∧
    c'.graph.segments.Perm moved
  entries : List.Forall₂ m.SendsEntry c.params.entries c'.params.entries
  uses : List.Forall₂ m.SendsUse c.params.uses c'.params.uses
  numQubits : c'.numQubits = c.numQubits
  numClbits : c'.numClbits = c.numClbits
  globalPhase : c'.globalPhase = c.globalPhase
  wireLabels : ∀ w, c'.wireLabels w = c.wireLabels w

theorem Tallied.size_compacted (tallied : c.Tallied) :
    c.compacted.records.size = c.numVertices := by
  rw [numVertices, tallied.numRemoved]
  exact Records.size_renumber ..

theorem kept_of_compacted {s : Record} (found : c.compacted.records.get? v = some s) :
    s.removed = false :=
  ((Records.moves_renumber c.records).live found).2

theorem Tallied.numbers (tallied : c.Tallied) : c.Numbers (VertexMap.ofRecords c.records) where
  defined_iff v := by
    have moves := Records.moves_renumber c.records
    constructor
    · intro given
      obtain ⟨k, number⟩ := given
      obtain ⟨r, live, -⟩ := moves.old v k number
      exact ⟨r, live⟩
    · intro given
      obtain ⟨r, live⟩ := given
      exact moves.total v r live
  increasing _ _ _ _ := Records.lt_of_ofRecords
  onto_iff k := by
    rw [← tallied.size_compacted]
    exact (Records.moves_renumber c.records).exists_iff

/-- The ports of a live vertex lead to vertices with new numbers. -/
theorem Layout.sendsRecord (layout : c.Layout line) (live : c.records.Live v r) :
    (VertexMap.ofRecords c.records).SendsRecord r
      (r.renumber (VertexMap.ofRecords c.records).get?) := by
  refine ⟨rfl, rfl, rfl, fun side => ?_⟩
  rw [Record.ports_renumber]
  refine List.forall₂_map_right_iff.mpr (List.forall₂_same.mpr ?_)
  rintro (_ | port) member
  · exact .none
  · have neighbor : port.vertex ∈ r.neighbors side :=
      List.mem_filterMap.mpr ⟨some port, member, rfl⟩
    obtain ⟨w, -, beside⟩ := (layout.mem_neighbors_iff live).mp neighbor
    have number := layout.numbered beside.mem.2
    rw [Option.bind_some, number]
    exact .some ⟨number, rfl⟩

theorem Layout.sendsAnchors (layout : c.Layout line) (side : Side) :
    List.Forall₂ (fun v k => (VertexMap.ofRecords c.records).get? v = some k)
      (c.anchors side).toList (c.compacted.anchors side).toList := by
  rw [anchors_compacted, Array.toList_map]
  refine List.forall₂_map_right_iff.mpr (List.forall₂_same.mpr fun v member => ?_)
  obtain ⟨w, position⟩ := List.getElem?_of_mem member
  obtain ⟨r, live, -⟩ := layout.anchored side w v ((Array.getElem?_toList ..).symm.trans position)
  exact newNumber_spec live

theorem Layout.sendsSegments (layout : c.Layout line) :
    ∃ moved, List.Forall₂ (VertexMap.ofRecords c.records).SendsSegment c.graph.segments moved ∧
      c.compacted.graph.segments.Perm moved := by
  obtain ⟨segments, -⟩ := Graph.renumber_spec layout.slotted
    (VertexMap.ofRecords c.records).numKept fun e member => layout.numbered_edge member
  refine ⟨_, List.forall₂_map_right_iff.mpr (List.forall₂_same.mpr ?_), segments⟩
  intro given member
  obtain ⟨e, inside, rfl⟩ := List.mem_map.mp member
  obtain ⟨source, target⟩ := layout.numbered_edge inside
  exact ⟨source, target, rfl⟩

theorem Tallied.sendsParams (tallied : c.Tallied) :
    List.Forall₂ (VertexMap.ofRecords c.records).SendsEntry c.params.entries
        c.compacted.params.entries ∧
      List.Forall₂ (VertexMap.ofRecords c.records).SendsUse c.params.uses
        c.compacted.params.uses := by
  have moves := Records.moves_renumber c.records
  refine tallied.coherent.sends moves.injective fun slot id occupied => ?_
  obtain ⟨e, position, inside⟩ := occupied
  have holds : c.params.holds slot e.param = true :=
    (ParamTable.holds_iff_exists tallied.coherent.distinct).mpr
      ⟨id, by rw [List.getElem?_map, position]; rfl, e, position, inside⟩
  obtain ⟨-, present, -⟩ := (tallied.indexed slot e.param).mp holds
  obtain ⟨r, live⟩ := Records.isLive_iff.mp present
  exact moves.total slot.vertex r live

theorem Layout.renamed (layout : c.Layout line) :
    c.Renamed (VertexMap.ofRecords c.records) c.compacted where
  records v _ live := ⟨c.newNumber v, _, newNumber_spec live, (compacted_live live).1,
    layout.sendsRecord live⟩
  size := layout.size_compacted
  kept _ _ := kept_of_compacted
  numRemoved := rfl
  anchors := layout.sendsAnchors
  segments := layout.sendsSegments
  entries := layout.sendsParams.1
  uses := layout.sendsParams.2
  numQubits := rfl
  numClbits := rfl
  globalPhase := rfl
  wireLabels := layout.wireLabels_compacted

/-! ## Blocks by their old numbers -/

/-- The vertices that some vertices have become are there if those were live. -/
theorem mapM_current?_compacted :
    vs.mapM (current? (some (VertexMap.ofRecords c.records))) = some block ↔
      (∀ v ∈ vs, ∃ r, c.records.Live v r) ∧ block = vs.map c.newNumber := by
  have moves := Records.moves_renumber c.records
  rw [mapM_eq_some_iff]
  constructor
  · intro all
    induction all with
    | nil => exact ⟨nofun, rfl⟩
    | @cons v k vs block number _ ih =>
        obtain ⟨r, live, -⟩ := moves.old v k number
        rw [← newNumber_eq number, ih.2]
        exact ⟨List.forall_mem_cons.mpr ⟨⟨r, live⟩, ih.1⟩, rfl⟩
  · intro given
    obtain ⟨live, rfl⟩ := given
    refine List.forall₂_map_right_iff.mpr (List.forall₂_same.mpr fun v member => ?_)
    obtain ⟨r, live⟩ := live v member
    exact newNumber_spec live

theorem beside_map {f : VertexId → VertexId} {l : List VertexId} {y z : VertexId} :
    Beside (l.map f) side y z ↔ ∃ a b, Beside l side a b ∧ f a = y ∧ f b = z := by
  cases side with
  | incoming =>
      refine adjacent_map.trans ⟨fun given => ?_, fun given => ?_⟩
      · obtain ⟨a, b, adjacent, first, second⟩ := given
        exact ⟨b, a, adjacent, second, first⟩
      · obtain ⟨a, b, adjacent, first, second⟩ := given
        exact ⟨b, a, adjacent, second, first⟩
  | outgoing => exact adjacent_map

theorem isOperation_newNumber (live : c.records.Live v r) :
    c.compacted.IsOperation (c.newNumber v) ↔ c.IsOperation v := by
  constructor
  · intro given
    obtain ⟨s, live', operation⟩ := given
    rw [live'.unique (compacted_live live)] at operation
    exact ⟨r, live, operation⟩
  · intro given
    obtain ⟨s, live', operation⟩ := given
    rw [live'.unique live] at operation
    exact ⟨_, compacted_live live, operation⟩

section Blocks

variable (layout : c.Layout line) (present : ∀ v ∈ block, ∃ r, c.records.Live v r)
include layout present

theorem Layout.newNumber_mem_iff (member : v ∈ line w) :
    c.newNumber v ∈ block.map c.newNumber ↔ v ∈ block := by
  refine ⟨fun inside => ?_, fun inside => List.mem_map_of_mem inside⟩
  obtain ⟨u, inside, same⟩ := List.mem_map.mp inside
  obtain ⟨r, live⟩ := layout.toThreaded.live member
  obtain ⟨s, live'⟩ := present u inside
  exact newNumber_injective live live' same.symm ▸ inside

theorem Layout.cutLine_compacted (w : WireId) :
    Graph.cutLine (fun w => (line w).map c.newNumber) (block.map c.newNumber) w =
      (Graph.cutLine line block w).map c.newNumber := by
  rw [Graph.cutLine, List.filter_map, Graph.cutLine]
  congr 1
  refine List.filter_congr fun v member => ?_
  simp only [Function.comp_apply, List.contains_eq_mem, layout.newNumber_mem_iff present member]

theorem Layout.leadsOut_compacted_iff (live : c.records.Live v r) :
    c.compacted.LeadsOut (block.map c.newNumber) side (c.newNumber v) ↔
      c.LeadsOut block side v := by
  simp only [layout.compact.leadsOut_iff, layout.leadsOut_iff, beside_map]
  constructor
  · intro given
    obtain ⟨w, -, ⟨u, x, beside, same, rfl⟩, outside⟩ := given
    obtain ⟨s, live'⟩ := layout.toThreaded.live beside.mem.1
    obtain rfl := newNumber_injective live' live same
    exact ⟨w, x, beside, (layout.newNumber_mem_iff present beside.mem.2).not.mp outside⟩
  · intro given
    obtain ⟨w, x, beside, outside⟩ := given
    exact ⟨w, c.newNumber x, ⟨v, x, beside, rfl, rfl⟩,
      (layout.newNumber_mem_iff present beside.mem.2).not.mpr outside⟩

theorem Layout.isBlock_compacted_iff :
    c.compacted.IsBlock (block.map c.newNumber) ↔ c.IsBlock block := by
  have ends : ∀ {side : Side} {end? : Option VertexId}, (∀ v, end? = some v → v ∈ block) →
      ((∃ k, end?.map c.newNumber = some k ∧
          c.compacted.LeadsOut (block.map c.newNumber) side k) ↔
        ∃ v, end? = some v ∧ c.LeadsOut block side v) := by
    intro side end? inside
    cases end? with
    | none => simp
    | some v =>
        obtain ⟨r, live⟩ := present v (inside v rfl)
        simpa using layout.leadsOut_compacted_iff present live
  rw [isBlock_iff, isBlock_iff, List.forall_mem_map, List.head?_map, List.getLast?_map]
  refine and_congr ?_ (and_congr ?_ (and_congr ?_ (and_congr (ends fun v => List.mem_of_head?)
    (ends fun v => List.mem_of_getLast?))))
  · refine forall₂_congr fun v inside => ?_
    obtain ⟨r, live⟩ := present v inside
    exact isOperation_newNumber live
  · refine ⟨List.Nodup.of_map _, fun unique => unique.map_on ?_⟩
    intro u inside v inside' same
    obtain ⟨r, live⟩ := present u inside
    obtain ⟨s, live'⟩ := present v inside'
    exact newNumber_injective live live' same
  · refine forall_congr' fun w => ?_
    rw [layout.compact.wireVertices_eq, layout.wireVertices_eq]
    exact contiguous_map_iff fun v member => layout.newNumber_mem_iff present member

end Blocks

/-- The old numbers name a block after a compaction if they did so before. -/
theorem Layout.removes_compacted_iff (layout : c.Layout line) :
    (∃ d, (removeBlock vs (some (VertexMap.ofRecords c.records))).run c.compacted = .ok () d) ↔
      ∃ d, (removeBlock vs).run c = .ok () d := by
  rw [layout.compact.removes_iff, layout.removes_iff, mapM_current?_none]
  simp only [mapM_current?_compacted, Option.some.injEq, exists_eq_left']
  constructor
  · intro given
    obtain ⟨block, ⟨present, rfl⟩, empty | isBlock⟩ := given
    · exact .inl (List.map_eq_nil_iff.mp empty)
    · exact .inr ((layout.isBlock_compacted_iff present).mp isBlock)
  · intro given
    rcases given with rfl | isBlock
    · exact ⟨[], ⟨nofun, rfl⟩, .inl rfl⟩
    · have present : ∀ v ∈ vs, ∃ r, c.records.Live v r := by
        intro v member
        obtain ⟨r, live, -⟩ := isBlock.operations v member
        exact ⟨r, live⟩
      exact ⟨_, ⟨present, rfl⟩, .inr ((layout.isBlock_compacted_iff present).mpr isBlock)⟩

/-- What is left without a block has the same labels, before a compaction and after it. -/
theorem Layout.wireLabels_removed (layout : c.Layout line) {d d' : Circuit}
    (run : (removeBlock vs).run c = .ok () d)
    (run' : (removeBlock vs (some (VertexMap.ofRecords c.records))).run c.compacted = .ok () d')
    (w : WireId) : d'.wireLabels w = d.wireLabels w := by
  obtain ⟨block, chosen, -, -, excised⟩ := layout.excised_of_removeBlock run
  obtain rfl := Option.some.inj (chosen.symm.trans (mapM_current?_none vs))
  obtain ⟨block', chosen', -, -, excised'⟩ := layout.compact.excised_of_removeBlock run'
  obtain ⟨present, rfl⟩ := mapM_current?_compacted.mp chosen'
  rw [excised'.wireLabels_eq, layout.cutLine_compacted present, List.filterMap_map,
    excised.wireLabels_eq]
  refine List.filterMap_congr fun v member => ?_
  obtain ⟨r, live⟩ := layout.toThreaded.live (List.mem_filter.mp member).1
  exact label?_newNumber live

/-- Compaction gives the live vertices the numbers from zero on and renames everything that refers
to them; a second one changes no number. With its map, blocks are removed by their old numbers as
they were before. -/
theorem compact_renames (reachable : c.Reachable) :
    ∃ m c', compact.run c = .ok m c' ∧ c.Numbers m ∧ c.Renamed m c' ∧
      (∃ m' c'', compact.run c' = .ok m' c'' ∧
        ∀ v, m'.get? v = if v < c'.records.size then some v else none) ∧
      ∀ vs : List VertexId,
        ((∃ d', (removeBlock vs (some m)).run c' = .ok () d') ↔
          ∃ d, (removeBlock vs).run c = .ok () d) ∧
        ∀ d d', (removeBlock vs).run c = .ok () d →
          (removeBlock vs (some m)).run c' = .ok () d' → ∀ w, d'.wireLabels w = d.wireLabels w := by
  obtain ⟨line, layout⟩ := reachable.laidOut
  refine ⟨_, _, compact_run c, layout.numbers, layout.renamed, ⟨_, _, compact_run _, ?_⟩, ?_⟩
  · exact Records.get?_ofRecords_of_kept fun v s => kept_of_compacted
  · exact fun vs => ⟨layout.removes_compacted_iff, fun d d' run run' =>
      layout.wireLabels_removed run run'⟩

/-- A Hadamard gate that is removed again leaves its number to the controlled gate behind it. -/
theorem compact_renames_controlled :
    let c := Change.after (Change.after (Change.after (blank 2 0)
      (.addOperation { element := .h } [0] [])) (.addOperation { element := .cx } [0, 1] []))
      (.removeOperation 4)
    ∃ m c', compact.run c = .ok m c' ∧ m.get? 4 = none ∧ m.get? 5 = some 4 ∧
      c'.wireLabels 0 = [⟨.cx, [], [0, 1]⟩] ∧
      ∃ d, (removeBlock [5] (some m)).run c' = .ok () d := by
  intro c
  have reachable : c.Reachable := (((Reachable.blank 2 0 Binary64.zero).change
    (.addOperation { element := .h } [0] [])).change
    (.addOperation { element := .cx } [0, 1] [])).change (.removeOperation 4)
  obtain ⟨m, c', run, -, renamed, -, blocks⟩ := compact_renames reachable
  have map : VertexMap.ofRecords c.records = m :=
    (EStateM.Result.ok.inj ((compact_run c).symm.trans run)).1
  refine ⟨m, c', run, map ▸ rfl, map ▸ rfl, ?_, (blocks [5]).1.mpr ⟨_, rfl⟩⟩
  rw [renamed.wireLabels]
  rfl

end Circuit

end CircuitDag
