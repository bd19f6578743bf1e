import CircuitDag.Records
import CircuitDag.Proofs.Adjacent

/-!
# Reading records and ports

What the elementary updates of records do to look-ups. Updates of ports leave the rest of every
record as it is; `Records.bare?` is that rest.
-/

set_option autoImplicit false

namespace CircuitDag

theorem Record.ports_setPort (r : Record) (side other : Side) (index : Nat) (port? : Option Port) :
    (r.setPort side index port?).ports other =
      if other = side then (r.ports side).set index port? else r.ports other := by
  cases side <;> cases other <;> rfl

def Record.bare (r : Record) : Record := { r with inPorts := [], outPorts := [] }

@[simp] theorem Record.bare_setPort (r : Record) (side : Side) (index : Nat)
    (port? : Option Port) : (r.setPort side index port?).bare = r.bare := by
  cases side <;> rfl

@[simp] theorem Record.wires_setPort (r : Record) (side : Side) (index : Nat)
    (port? : Option Port) : (r.setPort side index port?).wires = r.wires := by
  cases side <;> rfl

theorem Record.bare_eq_iff {r s : Record} :
    s.bare = r.bare ↔ s.operation = r.operation ∧ s.wires = r.wires ∧
      s.numQuantum = r.numQuantum ∧ s.removed = r.removed := by
  simp [bare]

theorem Record.operation_of_bare {r s : Record} (same : s.bare = r.bare) :
    s.operation = r.operation := (bare_eq_iff.mp same).1

theorem Record.wires_of_bare {r s : Record} (same : s.bare = r.bare) : s.wires = r.wires :=
  (bare_eq_iff.mp same).2.1

theorem Record.numQuantum_of_bare {r s : Record} (same : s.bare = r.bare) :
    s.numQuantum = r.numQuantum := (bare_eq_iff.mp same).2.2.1

theorem Record.removed_of_bare {r s : Record} (same : s.bare = r.bare) :
    s.removed = r.removed := (bare_eq_iff.mp same).2.2.2

theorem Record.element_of_bare {r s : Record} (same : s.bare = r.bare) :
    s.element = r.element := congrArg Operation.element (operation_of_bare same)

theorem Record.eq_of_bare {r s : Record} (same : s.bare = r.bare)
    (ports : ∀ side, s.ports side = r.ports side) : s = r := by
  have incoming : s.inPorts = r.inPorts := ports .incoming
  have outgoing : s.outPorts = r.outPorts := ports .outgoing
  obtain ⟨operation, wires, numQuantum, removed⟩ := bare_eq_iff.mp same
  cases r
  cases s
  simp_all

namespace Records

variable {rs rs' : Records} {side : Side} {v u : VertexId} {w : WireId} {r : Record}

theorem eq_of_get? (same : ∀ v, rs'.get? v = rs.get? v) : rs' = rs :=
  congrArg Records.mk (Array.ext_getElem? same)

theorem get?_push (rs : Records) (r : Record) (v : VertexId) :
    (rs.push r).get? v = if v = rs.size then some r else rs.get? v := by
  exact Array.getElem?_push

theorem get?_modify (rs : Records) (u v : VertexId) (f : Record → Record) :
    (rs.modify u f).get? v = if u = v then (rs.get? v).map f else rs.get? v := by
  simp only [modify, get?, Array.getElem?_modify]

@[simp] theorem size_push (rs : Records) (r : Record) : (rs.push r).size = rs.size + 1 := by
  simp [push, size]

@[simp] theorem size_modify (rs : Records) (v : VertexId) (f : Record → Record) :
    (rs.modify v f).size = rs.size := by
  simp [modify, size]

@[simp] theorem size_setPort (rs : Records) (side : Side) (port : Port) (port? : Option Port) :
    (rs.setPort side port port?).size = rs.size := size_modify ..

@[simp] theorem size_link (rs : Records) (source target : Port) :
    (rs.link source target).size = rs.size := by
  simp [link]

theorem lt_size_of_get? (found : rs.get? v = some r) : v < rs.size :=
  (Array.getElem?_eq_some_iff.mp found).1

theorem get?_eq_none_iff : rs.get? v = none ↔ rs.size ≤ v := by
  simp [get?, size]

theorem mem_select {vs : List VertexId} : (v, r) ∈ rs.select vs ↔ v ∈ vs ∧ rs.get? v = some r := by
  simp only [select, List.mem_filterMap, Option.map_eq_some_iff, Prod.mk.injEq]
  constructor
  · intro given
    obtain ⟨v, member, r, found, rfl, rfl⟩ := given
    exact ⟨member, found⟩
  · intro given
    exact ⟨v, given.1, r, given.2, rfl, rfl⟩

theorem map_fst_select_sublist (rs : Records) (vs : List VertexId) :
    ((rs.select vs).map Prod.fst).Sublist vs := by
  have part : ((rs.select vs).map Prod.fst).Sublist (vs.map id) := by
    refine sublist_map_filterMap (fun v entry found => ?_) _
    obtain ⟨r, -, rfl⟩ := Option.map_eq_some_iff.mp found
    rfl
  rwa [List.map_id] at part

theorem nodup_select {vs : List VertexId} (unique : vs.Nodup) :
    ((rs.select vs).map Prod.fst).Nodup := unique.sublist (rs.map_fst_select_sublist vs)

/-- A vertex that has not been removed, with its record. -/
def Live (rs : Records) (v : VertexId) (r : Record) : Prop :=
  rs.get? v = some r ∧ r.removed = false

/-- A vertex that has not been removed stands on a wire. -/
def Carries (rs : Records) (v : VertexId) (w : WireId) : Prop :=
  ∃ r, rs.Live v r ∧ w ∈ r.wires

theorem isLive_iff : rs.isLive v = true ↔ ∃ r, rs.Live v r := by
  unfold isLive Live
  cases rs.get? v <;> simp

theorem isLive_of_live (live : rs.Live v r) : rs.isLive v = true := isLive_iff.mpr ⟨r, live⟩

theorem Live.unique {s : Record} (first : rs.Live v r) (second : rs.Live v s) : r = s :=
  Option.some.inj (first.1.symm.trans second.1)

theorem Live.lt_size (live : rs.Live v r) : v < rs.size := lt_size_of_get? live.1

theorem mem_live : (v, r) ∈ rs.live ↔ rs.Live v r := by
  simp only [live, List.mem_filterMap, List.mem_range, Live]
  constructor
  · intro given
    obtain ⟨u, -, found⟩ := given
    cases lookup : rs.get? u with
    | none => simp [lookup] at found
    | some s =>
        cases gone : s.removed with
        | true => simp [lookup, gone] at found
        | false =>
            simp only [lookup, gone, Bool.false_eq_true, ↓reduceIte, Option.some.injEq,
              Prod.mk.injEq] at found
            obtain ⟨rfl, rfl⟩ := found
            exact ⟨lookup, gone⟩
  · intro given
    obtain ⟨found, kept⟩ := given
    exact ⟨v, lt_size_of_get? found, by simp [found, kept]⟩

/-! ## Everything but the ports -/

def bare? (rs : Records) (v : VertexId) : Option Record := (rs.get? v).map Record.bare

@[simp] theorem bare?_setPort (rs : Records) (side : Side) (port : Port) (port? : Option Port) :
    (rs.setPort side port port?).bare? = rs.bare? := by
  funext v
  simp only [bare?, setPort, get?_modify]
  split
  · cases rs.get? v <;> simp
  · rfl

@[simp] theorem bare?_link (rs : Records) (source target : Port) :
    (rs.link source target).bare? = rs.bare? := by
  simp [link]

theorem exists_get?_of_bare? (same : rs'.bare? = rs.bare?) (found : rs.get? v = some r) :
    ∃ s, rs'.get? v = some s ∧ s.bare = r.bare := by
  have agree : rs'.bare? v = some r.bare := by rw [same, bare?, found]; rfl
  exact Option.map_eq_some_iff.mp agree

theorem bare?_eq_none_iff : rs.bare? v = none ↔ rs.size ≤ v := by
  rw [bare?, Option.map_eq_none_iff, get?_eq_none_iff]

theorem size_of_bare? (same : rs'.bare? = rs.bare?) : rs'.size = rs.size := by
  have missing : ∀ v, rs'.size ≤ v ↔ rs.size ≤ v := fun v => by
    rw [← bare?_eq_none_iff, same, bare?_eq_none_iff]
  exact Nat.le_antisymm ((missing _).mpr (Nat.le_refl _)) ((missing _).mp (Nat.le_refl _))

theorem exists_live_of_bare? (same : rs'.bare? = rs.bare?) (live : rs.Live v r) :
    ∃ s, rs'.Live v s ∧ s.bare = r.bare := by
  obtain ⟨s, found, agree⟩ := exists_get?_of_bare? same live.1
  exact ⟨s, ⟨found, (Record.removed_of_bare agree).trans live.2⟩, agree⟩

theorem Carries.of_bare? (same : rs'.bare? = rs.bare?) (carries : rs.Carries v w) :
    rs'.Carries v w := by
  obtain ⟨r, live, member⟩ := carries
  obtain ⟨s, live', agree⟩ := exists_live_of_bare? same live
  exact ⟨s, live', Record.wires_of_bare agree ▸ member⟩

/-! ## Ports of vertices on wires -/

def portOn (rs : Records) (w : WireId) (v : VertexId) : Port :=
  ⟨v, ((rs.get? v).map fun r => r.wires.idxOf w).getD 0⟩

@[simp] theorem portOn_vertex (rs : Records) (w : WireId) (v : VertexId) :
    (rs.portOn w v).vertex = v := rfl

theorem portOn_eq (found : rs.get? v = some r) : rs.portOn w v = ⟨v, r.wires.idxOf w⟩ := by
  simp [portOn, found]

theorem portOn_of_getElem? {index : Nat} (found : rs.get? v = some r) (unique : r.wires.Nodup)
    (position : r.wires[index]? = some w) : rs.portOn w v = ⟨v, index⟩ := by
  obtain ⟨bound, rfl⟩ := List.getElem?_eq_some_iff.mp position
  rw [portOn_eq found, unique.idxOf_getElem]

theorem portOn_eq_of_bare? (same : rs'.bare? v = rs.bare? v) : rs'.portOn w v = rs.portOn w v := by
  have wires : ∀ rs : Records, (rs.get? v).map (·.wires) = (rs.bare? v).map (·.wires) := by
    intro rs
    rw [bare?, Option.map_map]
    rfl
  have position : ∀ rs : Records, ((rs.get? v).map fun r => r.wires.idxOf w) =
      ((rs.get? v).map (·.wires)).map (·.idxOf w) := by
    intro rs
    rw [Option.map_map]
    rfl
  rw [portOn, portOn, position, position, wires, wires, same]

theorem portOn_congr (same : rs'.bare? = rs.bare?) : rs'.portOn = rs.portOn := by
  funext w v
  exact portOn_eq_of_bare? (congrFun same v)

/-- The port on a wire determines the vertex and the wire. -/
theorem portOn_injective {w' : WireId} {v' : VertexId} (carries : rs.Carries v w)
    (carries' : rs.Carries v' w') (same : rs.portOn w v = rs.portOn w' v') :
    v = v' ∧ w = w' := by
  obtain ⟨r, live, member⟩ := carries
  obtain ⟨r', live', member'⟩ := carries'
  rw [portOn_eq live.1, portOn_eq live'.1] at same
  obtain ⟨rfl, index⟩ := Port.mk.inj same
  obtain rfl := live.unique live'
  exact ⟨rfl, (List.idxOf_inj member).mp index⟩

/-- The port that a port leads to on one side. -/
def facing (rs : Records) (side : Side) (port : Port) : Option Port :=
  rs.port? side port.vertex port.index

theorem facing_portOn (live : rs.Live v r) (unique : r.wires.Nodup) {i : Nat}
    (position : r.wires[i]? = some w) (side : Side) :
    rs.facing side (rs.portOn w v) = r.port? side i := by
  rw [portOn_of_getElem? live.1 unique position, facing, Records.port?, live.1]
  rfl

/-- Every record has one port on each side for each of its wires. -/
structure Shaped (rs : Records) : Prop where
  length_ports : ∀ v r, rs.get? v = some r → ∀ side, (r.ports side).length = r.wires.length

theorem Shaped.facing_eq_none (shaped : rs.Shaped) (found : rs.get? v = some r) {i : Nat}
    (beyond : r.wires.length ≤ i) (side : Side) : rs.facing side ⟨v, i⟩ = none := by
  rw [← shaped.length_ports v r found side] at beyond
  simp [facing, Records.port?, found, Record.port?, beyond]

/-- A record is known from all but its ports and from where its ports lead. -/
theorem get?_eq_of_facing (shaped : rs.Shaped) (shaped' : rs'.Shaped)
    (same : rs'.bare? v = rs.bare? v)
    (ports : ∀ side i, rs'.facing side ⟨v, i⟩ = rs.facing side ⟨v, i⟩) :
    rs'.get? v = rs.get? v := by
  cases found : rs.get? v with
  | none =>
      rw [bare?, bare?, found] at same
      exact Option.map_eq_none_iff.mp same
  | some r =>
      rw [bare?, bare?, found] at same
      obtain ⟨s, found', agree⟩ := Option.map_eq_some_iff.mp same
      rw [found', Option.some.injEq]
      refine Record.eq_of_bare agree fun side => ?_
      have length := shaped.length_ports v r found side
      have length' := shaped'.length_ports v s found' side
      rw [Record.wires_of_bare agree, ← length] at length'
      refine List.ext_getElem length' fun i left right => ?_
      have port := ports side i
      simp only [facing, Records.port?, found, found', Option.bind_some, Record.port?] at port
      rwa [List.getElem?_eq_getElem left, List.getElem?_eq_getElem right] at port

/-- A port stands at a wire position of a record. -/
def HasSlot (rs : Records) (port : Port) : Prop :=
  ∃ r, rs.get? port.vertex = some r ∧ port.index < r.wires.length

theorem hasSlot_portOn (carries : rs.Carries v w) : rs.HasSlot (rs.portOn w v) := by
  obtain ⟨r, live, member⟩ := carries
  refine ⟨r, live.1, ?_⟩
  rw [portOn_eq live.1]
  exact List.idxOf_lt_length_iff.mpr member

theorem HasSlot.of_bare? {port : Port} (same : rs'.bare? = rs.bare?) (slot : rs.HasSlot port) :
    rs'.HasSlot port := by
  obtain ⟨r, found, bound⟩ := slot
  obtain ⟨s, found', agree⟩ := exists_get?_of_bare? same found
  exact ⟨s, found', Record.wires_of_bare agree ▸ bound⟩

theorem Shaped.setPort (shaped : rs.Shaped) (side : Side) (port : Port) (port? : Option Port) :
    (rs.setPort side port port?).Shaped := by
  constructor
  intro v s found other
  rw [Records.setPort, get?_modify] at found
  split at found
  · obtain ⟨r, lookup, rfl⟩ := Option.map_eq_some_iff.mp found
    rw [Record.ports_setPort, Record.wires_setPort]
    split
    · rw [List.length_set]
      exact shaped.length_ports v r lookup side
    · exact shaped.length_ports v r lookup other
  · exact shaped.length_ports v s found other

theorem Shaped.link (shaped : rs.Shaped) (source target : Port) :
    (rs.link source target).Shaped := (shaped.setPort ..).setPort ..

theorem facing_setPort (shaped : rs.Shaped) {port : Port} (slot : rs.HasSlot port) (side : Side)
    (port? : Option Port) (other : Side) (q : Port) :
    (rs.setPort side port port?).facing other q =
      if other = side ∧ q = port then port? else rs.facing other q := by
  obtain ⟨v, index⟩ := port
  obtain ⟨u, j⟩ := q
  obtain ⟨r, found, bound⟩ := slot
  simp only at found bound
  simp only [facing, Records.port?, Records.setPort, get?_modify, Port.mk.injEq]
  by_cases same : v = u
  · subst same
    have length := shaped.length_ports v r found side
    simp only [found, ↓reduceIte, Option.map_some, Option.bind_some, Record.port?,
      Record.ports_setPort, true_and]
    by_cases sides : other = side
    · subst sides
      by_cases positions : j = index
      · subst positions
        simp [length, bound]
      · simp [positions, List.getElem?_set_ne (Ne.symm positions)]
    · simp [sides]
  · simp [same, Ne.symm same]

theorem facing_link_outgoing (shaped : rs.Shaped) {source target : Port}
    (sourceSlot : rs.HasSlot source) (targetSlot : rs.HasSlot target) (q : Port) :
    (rs.link source target).facing .outgoing q =
      if q = source then some target else rs.facing .outgoing q := by
  have targetSlot := targetSlot.of_bare? (bare?_setPort rs .outgoing source (some target))
  rw [link, facing_setPort (shaped.setPort ..) targetSlot, facing_setPort shaped sourceSlot]
  simp

theorem facing_link_incoming (shaped : rs.Shaped) {source target : Port}
    (sourceSlot : rs.HasSlot source) (targetSlot : rs.HasSlot target) (q : Port) :
    (rs.link source target).facing .incoming q =
      if q = target then some source else rs.facing .incoming q := by
  have targetSlot := targetSlot.of_bare? (bare?_setPort rs .outgoing source (some target))
  rw [link, facing_setPort (shaped.setPort ..) targetSlot, facing_setPort shaped sourceSlot]
  simp

end Records

end CircuitDag
