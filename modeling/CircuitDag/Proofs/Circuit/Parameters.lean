import CircuitDag.Proofs.Circuit.Layout

/-!
# Changing parameters

Replacing a parameter touches neither wires nor ports, so all lines stay. The table follows as long
as the replaced parameter is the one that is registered at the slot.
-/

set_option autoImplicit false

namespace CircuitDag

namespace Records

variable {rs : Records} {u : VertexId} {r s : Record}

/-- Replacing a parameter leaves everything but parameter lists as it is. -/
theorem exists_setParam (v : VertexId) (position : Nat) (p : Param)
    (found : rs.get? u = some r) :
    ∃ ps, (rs.setParam v position p).get? u = some { r with operation.params? := ps } := by
  rw [get?_setParam, found]
  split
  · exact ⟨_, rfl⟩
  · exact ⟨r.operation.params?, rfl⟩

theorem exists_of_setParam {v : VertexId} {position : Nat} {p : Param}
    (found : (rs.setParam v position p).get? u = some s) :
    ∃ r ps, rs.get? u = some r ∧ s = { r with operation.params? := ps } := by
  rw [get?_setParam] at found
  split at found
  · obtain ⟨r, lookup, rfl⟩ := Option.map_eq_some_iff.mp found
    exact ⟨r, _, lookup, rfl⟩
  · exact ⟨s, s.operation.params?, found, rfl⟩

theorem size_setParam (rs : Records) (v : VertexId) (position : Nat) (p : Param) :
    (rs.setParam v position p).size = rs.size := size_modify ..

theorem numTombstones_setParam (rs : Records) (v : VertexId) (position : Nat) (p : Param) :
    (rs.setParam v position p).numTombstones = rs.numTombstones := by
  rw [numTombstones, numTombstones, size_setParam]
  refine List.countP_congr fun u _ => ?_
  rw [isRemoved_iff, isRemoved_iff]
  constructor
  · intro given
    obtain ⟨s, found, removed⟩ := given
    obtain ⟨r, ps, before, rfl⟩ := exists_of_setParam found
    exact ⟨r, before, removed⟩
  · intro given
    obtain ⟨r, found, removed⟩ := given
    obtain ⟨ps, found⟩ := exists_setParam v position p found
    exact ⟨_, found, removed⟩

end Records

namespace Circuit

variable {c : Circuit} {line : WireId → List VertexId}

theorem Threaded.setParam (threaded : c.Threaded line) (v : VertexId) (position : Nat) (p : Param)
    (params : ParamTable) :
    ({ c with params, records := c.records.setParam v position p } : Circuit).Threaded line where
  shaped := by
    constructor
    intro u s found side
    obtain ⟨r, ps, before, rfl⟩ := Records.exists_of_setParam found
    have same : (Record.ports { r with operation.params? := ps } side) = r.ports side := by
      cases side <;> rfl
    rw [same]
    exact threaded.shaped.length_ports u r before side
  strung w := by
    refine (threaded.strung w).congr fun u _ r live => ?_
    obtain ⟨ps, found⟩ := Records.exists_setParam v position p live.1
    exact ⟨_, ⟨found, live.2⟩, rfl, fun side => by cases side <;> rfl⟩
  traced := threaded.traced
  slotted := threaded.slotted
  numVertices := by
    rw [Records.size_setParam]
    exact threaded.numVertices

theorem Seated.setParam (seated : c.Seated line) (v : VertexId) (position : Nat) (p : Param)
    (params : ParamTable) :
    ({ c with params, records := c.records.setParam v position p } : Circuit).Seated line := by
  have anchors : ({ c with params, records := c.records.setParam v position p } :
      Circuit).anchors = c.anchors := by
    funext side
    cases side <;> rfl
  constructor
  · intro u s given
    obtain ⟨found, kept⟩ := given
    obtain ⟨r, ps, before, rfl⟩ := Records.exists_of_setParam found
    have wired := seated.wired u r ⟨before, kept⟩
    exact ⟨wired.nonempty, wired.nodup, wired.placed⟩
  · intro u s found removed
    obtain ⟨r, ps, before, rfl⟩ := Records.exists_of_setParam found
    exact seated.retired u r before removed
  · intro u w given
    obtain ⟨s, ⟨found, kept⟩, member⟩ := given
    obtain ⟨r, ps, before, rfl⟩ := Records.exists_of_setParam found
    exact seated.covered u w ⟨r, ⟨before, kept⟩, member⟩
  · intro side
    rw [anchors]
    exact seated.sizes side
  · intro side w
    rw [anchors]
    exact seated.tips side w
  · intro side w u anchor
    rw [anchors] at anchor
    obtain ⟨r, live, element, wires⟩ := seated.anchored side w u anchor
    obtain ⟨ps, found⟩ := Records.exists_setParam v position p live.1
    exact ⟨_, ⟨found, live.2⟩, element, wires⟩
  · intro side u s given element
    obtain ⟨found, kept⟩ := given
    obtain ⟨r, ps, before, rfl⟩ := Records.exists_of_setParam found
    rw [anchors]
    exact seated.terminal side u r ⟨before, kept⟩ element

/-- Replacing the parameter at a slot of a live vertex keeps the invariant. -/
theorem Layout.rebind (layout : c.Layout line) {slot : ParamSlot} {old : Param}
    (live : c.records.isLive slot.vertex = true)
    (found : c.records.param? slot.vertex slot.position = some old) (new : Param) :
    (c.rebind slot old new).Layout line where
  toThreaded := layout.toThreaded.setParam ..
  toSeated := layout.toSeated.setParam ..
  toTallied :=
    { coherent := (layout.coherent.unregister _ _).register _ _
      indexed := layout.indexed.replace layout.coherent live found new
      numRemoved := by
        change c.numRemoved = (c.records.setParam _ _ _).numTombstones
        rw [Records.numTombstones_setParam]
        exact layout.numRemoved }
  orderly := layout.orderly

theorem LaidOut.setParam (laid : c.LaidOut) (v : VertexId) (position : Nat) (p : Param) :
    ((setParam v position p).after c).LaidOut := by
  obtain ⟨line, layout⟩ := id laid
  cases live : c.records.isLive v with
  | false =>
      have run : (Circuit.setParam v position p).after c = c := by
        simp [Edit.after, Circuit.setParam, live, EStateM.run_bind, run_throw]
      rw [run]
      exact laid
  | true =>
      cases found : c.records.param? v position with
      | none =>
          have run : (Circuit.setParam v position p).after c = c := by
            simp [Edit.after, Circuit.setParam, live, found, EStateM.run_bind, run_throw]
          rw [run]
          exact laid
      | some old =>
          have run : (Circuit.setParam v position p).after c = c.rebind ⟨v, position⟩ old p := by
            simp only [Edit.after, Circuit.setParam, EStateM.run_bind, EStateM.run_get, live,
              found, ↓reduceIte, EStateM.run_set, EStateM.run_pure, Circuit.rebind]
          have rebound : (c.rebind ⟨v, position⟩ old p).Layout line := layout.rebind live found p
          rw [run]
          exact ⟨line, rebound⟩

/-! ## Binding a symbol -/

/-- The slots that are found for a symbol are those at which the table has a parameter with it. -/
theorem mem_slotsOfSymbol {name : String} {p : Param} {slot : ParamSlot}
    (distinct : (c.params.entries.map ParamEntry.param).Nodup) :
    (p, slot) ∈ c.slotsOfSymbol name ↔ c.params.holds slot p = true ∧ name ∈ p.symbols := by
  rw [ParamTable.holds_iff_exists distinct, slotsOfSymbol, List.mem_flatMap]
  constructor
  · intro given
    obtain ⟨e, inside, member⟩ := given
    split at member
    · next mentioned =>
        obtain ⟨slot', listed, same⟩ := List.mem_map.mp member
        obtain ⟨rfl, rfl⟩ := Prod.mk.inj same
        obtain ⟨id, position⟩ := List.mem_iff_getElem?.mp inside
        exact ⟨⟨id, by rw [List.getElem?_map, position]; rfl, e, position, listed⟩,
          List.contains_iff_mem.mp mentioned⟩
    · cases member
  · intro given
    obtain ⟨⟨id, numbered, e, position, listed⟩, mentioned⟩ := given
    obtain rfl : e.param = p := by simpa [position] using numbered
    refine ⟨e, List.mem_of_getElem? position, ?_⟩
    rw [if_pos (List.contains_iff_mem.mpr mentioned)]
    exact List.mem_map.mpr ⟨slot, listed, rfl⟩

theorem nodup_slotsOfSymbol (coherent : c.params.Coherent) (name : String) :
    (c.slotsOfSymbol name).Nodup := by
  have distinct := coherent.distinct
  have unique := coherent.slots_nodup
  rw [slotsOfSymbol]
  generalize c.params.entries = es at distinct unique ⊢
  induction es with
  | nil => exact List.nodup_nil
  | cons e es ih =>
      obtain ⟨fresh, distinct⟩ := List.nodup_cons.mp distinct
      rw [List.flatMap_cons]
      refine List.nodup_append.mpr ⟨?_, ih distinct fun e member =>
        unique e (List.mem_cons_of_mem _ member), ?_⟩
      · split
        · exact (unique e List.mem_cons_self).map fun a b same => (Prod.mk.inj same).2
        · exact List.nodup_nil
      · intro given here _ there same
        obtain ⟨p, slot⟩ := given
        obtain rfl := same
        obtain ⟨e', inside, there⟩ := List.mem_flatMap.mp there
        have own : e.param = p := by
          split at here
          · obtain ⟨_, _, same⟩ := List.mem_map.mp here
            exact (Prod.mk.inj same).1
          · cases here
        have other : e'.param = p := by
          split at there
          · obtain ⟨_, _, same⟩ := List.mem_map.mp there
            exact (Prod.mk.inj same).1
          · cases there
        exact fresh (List.mem_map.mpr ⟨e', inside, other.trans own.symm⟩)

/-- Replacing parameters one after another, each at a slot of its own. -/
theorem Layout.foldl_rebind (layout : c.Layout line) (f : Param → Param)
    {slots : List (Param × ParamSlot)} (distinct : (slots.map Prod.snd).Nodup)
    (registered : ∀ p slot, (p, slot) ∈ slots → c.params.holds slot p = true) :
    (slots.foldl (fun c (p, slot) => c.rebind slot p (f p)) c).Layout line := by
  induction slots generalizing c with
  | nil => exact layout
  | cons x slots ih =>
      obtain ⟨p, slot⟩ := x
      obtain ⟨fresh, distinct⟩ := List.nodup_cons.mp distinct
      obtain ⟨-, live, found⟩ :=
        (layout.indexed slot p).mp (registered p slot List.mem_cons_self)
      refine ih (layout.rebind live found (f p)) distinct fun q other member => ?_
      have apart : other ≠ slot := by
        intro same
        obtain rfl := same
        exact fresh (List.mem_map.mpr ⟨_, member, rfl⟩)
      change ((c.params.unregister slot p).2.register slot (f p)).2.holds other q = true
      rw [(layout.coherent.unregister _ _).holds_register, layout.coherent.holds_unregister]
      exact .inl ⟨registered q other (List.mem_cons_of_mem _ member), fun same => apart same.1⟩

/-- Two parameters at one slot are both the parameter of the record there. -/
theorem Layout.nodup_slots (layout : c.Layout line) (name : String) :
    ((c.slotsOfSymbol name).map Prod.snd).Nodup := by
  refine (nodup_slotsOfSymbol layout.coherent name).map_on ?_
  intro given member given' member' same
  obtain ⟨p, slot⟩ := given
  obtain ⟨q, slot'⟩ := given'
  obtain rfl := same
  obtain ⟨-, -, found⟩ :=
    (layout.indexed slot p).mp ((mem_slotsOfSymbol layout.coherent.distinct).mp member).1
  obtain ⟨-, -, found'⟩ :=
    (layout.indexed slot q).mp ((mem_slotsOfSymbol layout.coherent.distinct).mp member').1
  rw [Option.some.inj (found.symm.trans found')]

theorem Layout.bindSymbol (layout : c.Layout line) (name : String) (number : Binary64) :
    ((bindSymbol name number).after c).Layout line :=
  layout.foldl_rebind (fun p => p.bind name number) (layout.nodup_slots name) fun _ _ member =>
    ((mem_slotsOfSymbol layout.coherent.distinct).mp member).1

theorem LaidOut.bindSymbol (laid : c.LaidOut) (name : String) (number : Binary64) :
    ((bindSymbol name number).after c).LaidOut := by
  obtain ⟨line, layout⟩ := laid
  exact ⟨line, layout.bindSymbol name number⟩

end Circuit

end CircuitDag
