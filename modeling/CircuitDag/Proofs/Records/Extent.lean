import CircuitDag.Proofs.Records.Strung

/-!
# Adding and emptying records

A new record has a number of its own, and an emptied record keeps its number. Both leave the other
records and the wires without that vertex as they are.
-/

set_option autoImplicit false

namespace CircuitDag.Records

variable {rs rs' : Records} {side : Side} {u v : VertexId} {w : WireId} {r s : Record}
  {l : List VertexId}

theorem nodup_live (rs : Records) : (rs.live.map Prod.fst).Nodup := by
  have part : (rs.live.map Prod.fst).Sublist ((List.range rs.size).map id) := by
    refine sublist_map_filterMap ?_ _
    intro v x found
    split at found
    · split at found
      · cases found
      · exact congrArg Prod.fst (Option.some.inj found).symm
    · cases found
  rw [List.map_id] at part
  exact List.nodup_range.sublist part

theorem isLive_congr (same : rs'.bare? = rs.bare?) (v : VertexId) :
    rs'.isLive v = rs.isLive v := by
  rw [Bool.eq_iff_iff, isLive_iff, isLive_iff]
  constructor
  · intro given
    obtain ⟨r, live⟩ := given
    obtain ⟨s, live', -⟩ := exists_live_of_bare? same.symm live
    exact ⟨s, live'⟩
  · intro given
    obtain ⟨r, live⟩ := given
    obtain ⟨s, live', -⟩ := exists_live_of_bare? same live
    exact ⟨s, live'⟩

theorem isRemoved_iff : rs.isRemoved v = true ↔ ∃ r, rs.get? v = some r ∧ r.removed = true := by
  unfold isRemoved
  cases rs.get? v <;> simp

theorem Live.isRemoved (live : rs.Live v r) : rs.isRemoved v = false := by
  simp [Records.isRemoved, live.1, live.2]

theorem isRemoved_congr (same : rs'.bare? = rs.bare?) : rs'.isRemoved = rs.isRemoved := by
  funext v
  rw [Bool.eq_iff_iff, isRemoved_iff, isRemoved_iff]
  constructor
  · intro given
    obtain ⟨r, found, removed⟩ := given
    obtain ⟨s, found', agree⟩ := exists_get?_of_bare? same.symm found
    exact ⟨s, found', (Record.removed_of_bare agree).trans removed⟩
  · intro given
    obtain ⟨r, found, removed⟩ := given
    obtain ⟨s, found', agree⟩ := exists_get?_of_bare? same found
    exact ⟨s, found', (Record.removed_of_bare agree).trans removed⟩

def numTombstones (rs : Records) : Nat := (List.range rs.size).countP rs.isRemoved

theorem numTombstones_congr (same : rs'.bare? = rs.bare?) (size : rs'.size = rs.size) :
    rs'.numTombstones = rs.numTombstones := by
  rw [numTombstones, isRemoved_congr same, size, numTombstones]

/-! ## Adding a record -/

theorem get?_push_of_lt (r : Record) (bound : v < rs.size) : (rs.push r).get? v = rs.get? v := by
  rw [get?_push, if_neg (Nat.ne_of_lt bound)]

theorem get?_push_size (rs : Records) (r : Record) : (rs.push r).get? rs.size = some r := by
  rw [get?_push, if_pos rfl]

theorem Live.push (live : rs.Live v s) (r : Record) : (rs.push r).Live v s :=
  ⟨(get?_push_of_lt r live.lt_size).trans live.1, live.2⟩

theorem live_push_size (rs : Records) (kept : r.removed = false) :
    (rs.push r).Live rs.size r := ⟨get?_push_size rs r, kept⟩

theorem get?_of_push (found : (rs.push r).get? v = some s) :
    rs.get? v = some s ∨ (v = rs.size ∧ s = r) := by
  rw [get?_push] at found
  split at found
  · next new => exact .inr ⟨new, (Option.some.inj found).symm⟩
  · exact .inl found

theorem Live.of_push (live : (rs.push r).Live v s) : rs.Live v s ∨ (v = rs.size ∧ s = r) :=
  (get?_of_push live.1).imp (fun old => ⟨old, live.2⟩) id

theorem Carries.push (carries : rs.Carries v w) (r : Record) : (rs.push r).Carries v w := by
  obtain ⟨s, live, member⟩ := carries
  exact ⟨s, live.push r, member⟩

theorem isLive_push (r : Record) (kept : r.removed = false) :
    (rs.push r).isLive u = if u = rs.size then true else rs.isLive u := by
  simp only [isLive, get?_push]
  by_cases new : u = rs.size
  · simp [new, kept]
  · simp only [new, ↓reduceIte]

theorem Shaped.push (shaped : rs.Shaped)
    (ports : ∀ side, (r.ports side).length = r.wires.length) : (rs.push r).Shaped := by
  constructor
  intro v s found
  rcases get?_of_push found with old | ⟨-, rfl⟩
  · exact shaped.length_ports v s old
  · exact ports

theorem Strung.push (strung : rs.Strung w l) (r : Record) : (rs.push r).Strung w l :=
  strung.congr fun _ _ s live => ⟨s, live.push r, rfl, fun _ => rfl⟩

theorem numTombstones_push (kept : r.removed = false) :
    (rs.push r).numTombstones = rs.numTombstones := by
  have new : (rs.push r).isRemoved rs.size = false := (live_push_size rs kept).isRemoved
  rw [numTombstones, size_push, List.range_succ, List.countP_append, List.countP_singleton, new]
  simp only [Bool.false_eq_true, ↓reduceIte, Nat.add_zero]
  apply List.countP_congr
  intro v member
  simp only [isRemoved, get?_push_of_lt r (List.mem_range.mp member)]

/-! ## Emptying a record -/

theorem get?_tombstone (rs : Records) (v u : VertexId) :
    (rs.tombstone v).get? u = if v = u then (rs.get? u).map Record.tombstone else rs.get? u :=
  get?_modify ..

@[simp] theorem size_tombstone (rs : Records) (v : VertexId) :
    (rs.tombstone v).size = rs.size := size_modify ..

/-- Emptying several records leaves the others alone, and no record is emptied further. -/
theorem get?_foldl_tombstone (vs : List VertexId) (rs : Records) (u : VertexId) :
    (vs.foldl tombstone rs).get? u =
      if u ∈ vs then (rs.get? u).map Record.tombstone else rs.get? u := by
  induction vs generalizing rs with
  | nil => rfl
  | cons v vs ih =>
      rw [List.foldl_cons, ih, get?_tombstone]
      by_cases same : v = u
      · have twice : (rs.get? u).map (Record.tombstone ∘ Record.tombstone) =
            (rs.get? u).map Record.tombstone := rfl
        simp [same, twice]
      · simp [same, Ne.symm same]

theorem size_foldl_tombstone (vs : List VertexId) (rs : Records) :
    (vs.foldl tombstone rs).size = rs.size := by
  induction vs generalizing rs with
  | nil => rfl
  | cons v vs ih => rw [List.foldl_cons, ih, size_tombstone]

theorem isLive_tombstone (rs : Records) (v u : VertexId) :
    (rs.tombstone v).isLive u = (rs.isLive u && u != v) := by
  simp only [isLive, get?_tombstone]
  by_cases same : v = u
  · subst same
    cases rs.get? v <;> simp [Record.tombstone]
  · simp [same, Ne.symm same]

theorem live_tombstone : (rs.tombstone v).Live u s ↔ u ≠ v ∧ rs.Live u s := by
  unfold Live
  rw [get?_tombstone]
  by_cases same : v = u
  · subst same
    rw [if_pos rfl]
    constructor
    · intro given
      obtain ⟨found, kept⟩ := given
      obtain ⟨r, -, rfl⟩ := Option.map_eq_some_iff.mp found
      cases kept
    · exact fun h => absurd rfl h.1
  · rw [if_neg same]
    exact ⟨fun h => ⟨Ne.symm same, h⟩, fun h => h.2⟩

theorem carries_tombstone : (rs.tombstone v).Carries u w ↔ u ≠ v ∧ rs.Carries u w := by
  simp only [Carries, live_tombstone, and_assoc, exists_and_left]

theorem Shaped.tombstone (shaped : rs.Shaped) (v : VertexId) : (rs.tombstone v).Shaped := by
  constructor
  intro u s found
  rw [get?_tombstone] at found
  split at found
  · obtain ⟨r, -, rfl⟩ := Option.map_eq_some_iff.mp found
    intro side
    cases side <;> rfl
  · exact shaped.length_ports u s found

theorem Strung.tombstone (strung : rs.Strung w l) (absent : v ∉ l) :
    (rs.tombstone v).Strung w l := by
  refine strung.congr fun u member s live => ⟨s, ?_, rfl, fun _ => rfl⟩
  refine live_tombstone.mpr ⟨?_, live⟩
  intro same
  obtain rfl := same
  exact absent member

theorem numTombstones_tombstone (live : rs.Live v r) :
    (rs.tombstone v).numTombstones = rs.numTombstones + 1 := by
  have others : ∀ u, u ≠ v → (rs.tombstone v).isRemoved u = rs.isRemoved u := by
    intro u different
    simp only [isRemoved, get?_tombstone, Ne.symm different, ↓reduceIte]
  have now : (rs.tombstone v).isRemoved v = true :=
    isRemoved_iff.mpr ⟨r.tombstone, by rw [get?_tombstone, if_pos rfl, live.1]; rfl, rfl⟩
  have count : ∀ vs : List VertexId, vs.Nodup → v ∈ vs →
      vs.countP (rs.tombstone v).isRemoved = vs.countP rs.isRemoved + 1 := by
    intro vs unique member
    induction vs with
    | nil => cases member
    | cons x vs ih =>
        obtain ⟨fresh, unique⟩ := List.nodup_cons.mp unique
        rw [List.countP_cons, List.countP_cons]
        rcases List.mem_cons.mp member with rfl | member
        · have rest : vs.countP (rs.tombstone v).isRemoved = vs.countP rs.isRemoved := by
            apply List.countP_congr
            intro u inside
            rw [others u fun same => fresh (same ▸ inside)]
          simp [rest, now, live.isRemoved]
        · have different : x ≠ v := fun same => fresh (same ▸ member)
          rw [ih unique member, others x different]
          omega
  rw [numTombstones, size_tombstone]
  exact count _ List.nodup_range (List.mem_range.mpr live.lt_size)

end CircuitDag.Records
