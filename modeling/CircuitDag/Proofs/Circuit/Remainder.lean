import CircuitDag.Proofs.Circuit.Blocks
import CircuitDag.Proofs.Circuit.Labels

/-!
# What is left without a block

Cutting out a block of operations changes nothing but the lines through the block. The records, the
segments and the parameters that are left depend only on which operations are taken out, so the
operations of a block may as well be removed one by one, in any order.
-/

set_option autoImplicit false

namespace CircuitDag.Circuit

variable {c c' c'' : Circuit} {line line' : WireId → List VertexId} {u v x : VertexId} {w : WireId}
  {r s : Record} {block block' : List VertexId} {side : Side} {passages : List Passage}

/-! ## Cutting out a block -/

/-- A circuit from which a block of operations has been taken out, with nothing else changed. -/
structure Without (c : Circuit) (line : WireId → List VertexId) (block : List VertexId)
    (c' : Circuit) : Prop where
  layout : c'.Layout (Graph.cutLine line block)
  bare : ∀ x, x ∉ block → c'.records.bare? x = c.records.bare? x
  size : c'.records.size = c.records.size
  numRemoved : c'.numRemoved = c.numRemoved + block.length
  numQubits : c'.numQubits = c.numQubits
  numClbits : c'.numClbits = c.numClbits

theorem Layout.without_nil (layout : c.Layout line) : c.Without line [] c := by
  have same : Graph.cutLine line [] = line := by
    funext w
    simp [Graph.cutLine]
  exact ⟨same.symm ▸ layout, fun _ _ => rfl, rfl, rfl, rfl, rfl⟩

theorem Without.trans (first : c.Without line block c')
    (second : c'.Without (Graph.cutLine line block) block' c'') :
    c.Without line (block ++ block') c'' where
  layout := cutLine_append line block block' ▸ second.layout
  bare x fresh := by
    rw [List.mem_append, not_or] at fresh
    rw [second.bare x fresh.2, first.bare x fresh.1]
  size := second.size.trans first.size
  numRemoved := by rw [second.numRemoved, first.numRemoved, List.length_append, Nat.add_assoc]
  numQubits := second.numQubits.trans first.numQubits
  numClbits := second.numClbits.trans first.numClbits

theorem Without.live (without : c.Without line block c') (fresh : x ∉ block)
    (live : c.records.Live x r) : ∃ s, c'.records.Live x s ∧ s.bare = r.bare := by
  have agree : (c'.records.get? x).map Record.bare = some r.bare := by
    have same := without.bare x fresh
    rw [Records.bare?, Records.bare?, live.1] at same
    exact same
  obtain ⟨s, found, bare⟩ := Option.map_eq_some_iff.mp agree
  exact ⟨s, ⟨found, (Record.removed_of_bare bare).trans live.2⟩, bare⟩

theorem Without.label?_congr (without : c.Without line block c') (fresh : x ∉ block) :
    c'.label? x = c.label? x :=
  Circuit.label?_congr (without.bare x fresh)

/-- The wires lose the labels of the block and no others. -/
theorem Without.wireLabels_eq (without : c.Without line block c') (w : WireId) :
    c'.wireLabels w = (Graph.cutLine line block w).filterMap c.label? := by
  rw [wireLabels, without.layout.wireVertices_eq]
  refine List.filterMap_congr fun v member => without.label?_congr ?_
  simpa using (List.mem_filter.mp member).2

/-- On the lines without a block stand the operations outside it, in the order in which they have
been listed before. -/
theorem Layout.rearranged_cut (layout : c.Layout line)
    (layout' : c'.Layout (Graph.cutLine line block))
    (same : ∀ x, x ∉ block → c'.label? x = c.label? x) : Rearranged Label.wires c'.labels
      ((c.topologicalVertices.filter fun v => !block.contains v).filterMap c.label?) := by
  have kept : ∀ v ∈ c.topologicalVertices.filter fun v => !block.contains v,
      c'.label? v = c.label? v := by
    intro v member
    apply same
    simpa using (List.mem_filter.mp member).2
  rw [← List.filterMap_congr kept]
  exact layout'.rearranged_of_linearizes (layout.linearizes.cut block)

theorem Without.vertex_eq {M : Type*} [Monoid M] (I : Interpretation M)
    (without : c.Without line block c') (fresh : x ∉ block) : I.vertex c' x = I.vertex c x := by
  rw [vertex_eq_elim, vertex_eq_elim, without.label?_congr fresh]

/-- A circuit without a block of operations, with the records that are left behind for them and
without their parameters. -/
structure Excised (c : Circuit) (line : WireId → List VertexId) (block : List VertexId)
    (c' : Circuit) : Prop extends Without c line block c' where
  gone : ∀ x ∈ block, c'.records.bare? x = (c.records.bare? x).map Record.tombstone
  params : c'.params = block.foldl ParamTable.purge c.params
  globalPhase : c'.globalPhase = c.globalPhase
  inputs : c'.inputs = c.inputs
  outputs : c'.outputs = c.outputs

theorem Layout.excised_nil (layout : c.Layout line) : c.Excised line [] c :=
  ⟨layout.without_nil, nofun, rfl, rfl, rfl, rfl⟩

theorem Excised.trans (first : c.Excised line block c')
    (second : c'.Excised (Graph.cutLine line block) block' c'') :
    c.Excised line (block ++ block') c'' where
  toWithout := first.toWithout.trans second.toWithout
  gone x member := by
    have once : ∀ row : Option Record, (row.map Record.tombstone).map Record.tombstone =
        row.map Record.tombstone := fun row => by cases row <;> rfl
    by_cases late : x ∈ block'
    · rw [second.gone x late]
      by_cases early : x ∈ block
      · rw [first.gone x early, once]
      · rw [first.bare x early]
    · have early : x ∈ block := (List.mem_append.mp member).resolve_right late
      rw [second.bare x late, first.gone x early]
  params := by rw [second.params, first.params, List.foldl_append]
  globalPhase := second.globalPhase.trans first.globalPhase
  inputs := second.inputs.trans first.inputs
  outputs := second.outputs.trans first.outputs

theorem retireAll_eq (block : List VertexId) (c : Circuit) :
    block.foldl retire c = { c with
      params := block.foldl ParamTable.purge c.params
      records := block.foldl Records.tombstone c.records
      numRemoved := c.numRemoved + block.length } := by
  induction block generalizing c with
  | nil => rfl
  | cons v block ih =>
      rw [List.foldl_cons, ih, List.length_cons, Nat.add_comm block.length 1, ← Nat.add_assoc]
      rfl

/-- A block that every wire passes through is cut out with nothing else changed. -/
theorem Layout.excised (layout : c.Layout line) (unique : block.Nodup)
    (operations : ∀ v ∈ block, c.IsOperation v) (passes : c.Passes line block passages) :
    c.Excised line block (c.excise block passages) := by
  obtain ⟨linked, linkedSize⟩ := Records.bare?_linkAll passages c.records
  have cut := layout.excise unique operations passes
  have shape : c.excise block passages = { c with
      records := block.foldl Records.tombstone (c.records.linkAll passages)
      graph := (block.foldl Graph.clearVertex c.graph).addAll passages
      params := block.foldl ParamTable.purge c.params
      numRemoved := c.numRemoved + block.length } := retireAll_eq ..
  rw [shape] at cut ⊢
  refine ⟨⟨cut, fun x fresh => ?_, ?_, rfl, rfl, rfl⟩, fun x member => ?_, rfl, rfl, rfl, rfl⟩
  · rw [← linked, Records.bare?, Records.get?_foldl_tombstone, if_neg fresh, Records.bare?]
  · exact (Records.size_foldl_tombstone ..).trans linkedSize
  · rw [← linked, Records.bare?, Records.get?_foldl_tombstone, if_pos member, Records.bare?]
    cases (c.records.linkAll passages).get? x <;> rfl

/-! ## Removing one by one -/

/-- Operations can be removed one after the other. -/
theorem Layout.removeAll (layout : c.Layout line) (unique : block.Nodup)
    (operations : ∀ v ∈ block, c.IsOperation v) :
    ∃ c', (block.forM fun v => discard (Circuit.removeOperation v)).run c = .ok () c' ∧
      c.Excised line block c' := by
  induction block generalizing c line with
  | nil => exact ⟨c, rfl, layout.excised_nil⟩
  | cons v block ih =>
      obtain ⟨fresh, rest⟩ := List.nodup_cons.mp unique
      obtain ⟨⟨r, live, operation⟩, others⟩ := List.forall_mem_cons.mp operations
      have first := layout.excised (List.nodup_singleton v)
        (List.forall_mem_singleton.mpr ⟨r, live, operation⟩)
        (layout.passes_operation live operation)
      -- The records of the others lose at most ports, so they are operations still.
      have remaining : ∀ u ∈ block, (c.excise [v] r.passages).IsOperation u := by
        intro u member
        obtain ⟨s, live', operation'⟩ := others u member
        have different : u ∉ [v] := fun same => fresh (List.mem_singleton.mp same ▸ member)
        obtain ⟨s', live'', agree⟩ := first.live different live'
        exact ⟨s', live'', by rw [Record.isAnchor, Record.element_of_bare agree]; exact operation'⟩
      obtain ⟨c', run, second⟩ := ih first.layout rest remaining
      refine ⟨c', ?_, first.trans second⟩
      have step : EStateM.run (discard (Circuit.removeOperation v)) c =
          .ok () (c.excise [v] r.passages) := by
        unfold discard
        rw [map_const, Function.comp_apply, ← bind_pure_comp, EStateM.run_bind,
          layout.removeOperation_run live operation]
        rfl
      change EStateM.run (discard (Circuit.removeOperation v) >>= fun _ => block.forM _) c = _
      rw [EStateM.run_bind, step]
      exact run

/-! ## The lines determine the rest -/

/-- The port of a vertex on a wire leads where it led before if its neighbour there is the same. -/
theorem Layout.facing_eq (layout : c.Layout line) (layout' : c'.Layout line')
    (same : ∀ x ∈ line w, c'.records.portOn w x = c.records.portOn w x) (member : v ∈ line w)
    (tip : tip? (line w) side = some v → tip? (line' w) side = some v)
    (beside : ∀ x, Beside (line w) side v x → Beside (line' w) side v x) :
    c'.records.facing side (c.records.portOn w v) =
      c.records.facing side (c.records.portOn w v) := by
  rcases tip_or_beside member side with last | ⟨x, next⟩
  · rw [layout.facing_of_tip? last, ← same v member, layout'.facing_of_tip? (tip last)]
  · rw [layout.facing_of_beside next, ← same v member, layout'.facing_of_beside (beside x next),
      same x next.mem.2]

theorem Layout.facing_congr (layout : c.Layout line) (layout' : c'.Layout line') {port : Port}
    (same : c'.records.bare? port.vertex = c.records.bare? port.vertex)
    (onWires : ∀ w, port.vertex ∈ line w → port = c.records.portOn w port.vertex →
      c'.records.facing side port = c.records.facing side port) :
    c'.records.facing side port = c.records.facing side port := by
  obtain ⟨v, i⟩ := port
  cases found : c.records.get? v with
  | none =>
      rw [Records.bare?, Records.bare?, found] at same
      simp [Records.facing, Records.port?, found, Option.map_eq_none_iff.mp same]
  | some r =>
      rw [Records.bare?, Records.bare?, found] at same
      obtain ⟨s, found', agree⟩ := Option.map_eq_some_iff.mp same
      rcases Nat.lt_or_ge i r.wires.length with bound | beyond
      · have position : r.wires[i]? = some r.wires[i] := List.getElem?_eq_getElem bound
        cases removed : r.removed with
        | true =>
            -- A removed vertex stands on no wire.
            rw [layout.retired v r found removed] at bound
            cases bound
        | false =>
            have live : c.records.Live v r := ⟨found, removed⟩
            exact onWires r.wires[i] (layout.covered v _ ⟨r, live, List.getElem_mem bound⟩)
              (Records.portOn_of_getElem? found (layout.wired v r live).nodup position).symm
      · rw [layout.shaped.facing_eq_none found beyond,
          layout'.shaped.facing_eq_none found' (Record.wires_of_bare agree ▸ beyond)]

/-- A record that differs in its ports at most is the same if its vertex is on the same lines. -/
theorem Layout.get?_eq (layout : c.Layout line) (layout' : c'.Layout line)
    (same : c'.records.bare? v = c.records.bare? v)
    (lines : ∀ w x, x ∈ line w → c'.records.bare? x = c.records.bare? x) :
    c'.records.get? v = c.records.get? v := by
  refine Records.get?_eq_of_facing layout.shaped layout'.shaped same fun side i => ?_
  refine layout.facing_congr layout' same fun w member port => ?_
  rw [port]
  exact layout.facing_eq layout' (fun x inside => Records.portOn_eq_of_bare? (lines w x inside))
    member id fun x => id

/-- Records that differ in their ports at most are the same if they are on the same lines. -/
theorem Layout.records_eq (layout : c.Layout line) (layout' : c'.Layout line)
    (same : c'.records.bare? = c.records.bare?) : c'.records = c.records :=
  Records.eq_of_get? fun v => layout.get?_eq layout' (congrFun same v) fun _ x _ => congrFun same x

/-- Two circuits that agree in everything but the order in which edges are stored. -/
structure Agrees (c c' : Circuit) : Prop where
  wireVertices : ∀ w, c'.wireVertices w = c.wireVertices w
  records : c'.records = c.records
  segments : c'.graph.segments.Perm c.graph.segments
  params : c'.params = c.params
  numVertices : c'.numVertices = c.numVertices
  numQubits : c'.numQubits = c.numQubits
  numClbits : c'.numClbits = c.numClbits
  globalPhase : c'.globalPhase = c.globalPhase
  inputs : c'.inputs = c.inputs
  outputs : c'.outputs = c.outputs
  numRemoved : c'.numRemoved = c.numRemoved

/-- What is left does not depend on how the operations of a block have been taken out. -/
theorem Excised.agrees (first : c.Excised line block c') (second : c.Excised line block' c'')
    (coherent : c.params.Coherent) (perm : block'.Perm block) : c'.Agrees c'' := by
  have lines : Graph.cutLine line block' = Graph.cutLine line block := by
    funext w
    refine List.filter_congr fun x _ => ?_
    simp [perm.mem_iff]
  have layout := lines ▸ second.layout
  have bare : c''.records.bare? = c'.records.bare? := by
    funext x
    by_cases member : x ∈ block
    · rw [first.gone x member, second.gone x (perm.mem_iff.mpr member)]
    · rw [first.bare x member, second.bare x (perm.mem_iff.not.mpr member)]
  have numRemoved : c''.numRemoved = c'.numRemoved := by
    rw [first.numRemoved, second.numRemoved, perm.length_eq]
  refine ⟨fun w => ?_, first.layout.records_eq layout bare, ?_, ?_, ?_,
    second.numQubits.trans first.numQubits.symm, second.numClbits.trans first.numClbits.symm,
    second.globalPhase.trans first.globalPhase.symm, second.inputs.trans first.inputs.symm,
    second.outputs.trans first.outputs.symm, numRemoved⟩
  · rw [layout.wireVertices_eq, first.layout.wireVertices_eq]
  · refine (List.perm_ext_iff_of_nodup layout.traced.nodup first.layout.traced.nodup).mpr ?_
    intro given
    obtain ⟨s, t, w⟩ := given
    rw [layout.traced.mem_iff, first.layout.traced.mem_iff]
  · rw [first.params, second.params, coherent.foldl_purge, coherent.foldl_purge]
    simp only [perm.mem_iff]
  · rw [numVertices, numVertices, numRemoved, first.size, second.size]

end CircuitDag.Circuit
