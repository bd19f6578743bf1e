import CircuitDag.Proofs.Outcomes
import CircuitDag.Proofs.ParamTable.Coherence
import CircuitDag.Proofs.Records.Extent

/-!
# The parameter table and the records

The table indexes the records when it holds exactly the symbolic parameters of live vertices. Adding
and removing vertices and replacing parameters keep this, and the check of the table decides it.
-/

set_option autoImplicit false

namespace CircuitDag

namespace Records

variable {rs : Records} {v u : VertexId} {r : Record} {p : Param} {position : Nat}

theorem param?_eq (found : rs.get? v = some r) (position : Nat) :
    rs.param? v position = r.params[position]? := by
  unfold param? Record.params Operation.params
  cases params : r.operation.params? <;> simp [found, params]

theorem get?_of_param? (found : rs.param? v position = some p) :
    ∃ r, rs.get? v = some r ∧ r.params[position]? = some p := by
  cases lookup : rs.get? v with
  | none => simp [param?, lookup] at found
  | some r => exact ⟨r, rfl, (param?_eq lookup position).symm.trans found⟩

theorem get?_setParam (rs : Records) (v u : VertexId) (position : Nat) (p : Param) :
    (rs.setParam v position p).get? u = if v = u then (rs.get? u).map (fun r =>
      { r with operation.params? := r.operation.params?.map (·.set position p) })
    else rs.get? u := get?_modify ..

theorem isLive_setParam (rs : Records) (v u : VertexId) (position : Nat) (p : Param) :
    (rs.setParam v position p).isLive u = rs.isLive u := by
  simp only [isLive, get?_setParam]
  by_cases same : v = u
  · rw [if_pos same]
    cases rs.get? u <;> rfl
  · rw [if_neg same]

theorem param?_setParam {old : Param} (found : rs.param? v position = some old) (p : Param)
    (u : VertexId) (i : Nat) :
    (rs.setParam v position p).param? u i =
      if u = v ∧ i = position then some p else rs.param? u i := by
  obtain ⟨r, lookup, present⟩ := get?_of_param? found
  by_cases same : v = u
  · subst same
    have changed := (get?_setParam rs v v position p).trans (if_pos rfl)
    rw [lookup, Option.map_some] at changed
    rw [param?_eq changed, param?_eq lookup]
    simp only [Record.params, Operation.params] at present ⊢
    cases params : r.operation.params? with
    | none => simp [params] at present
    | some ps =>
        have bound : position < ps.length := by
          simp only [params, Option.getD_some] at present
          exact (List.getElem?_eq_some_iff.mp present).1
        simp only [Option.map_some, Option.getD_some, List.getElem?_set, true_and]
        by_cases place : position = i
        · subst place
          simp [bound]
        · simp [place, Ne.symm place]
  · have unchanged := (get?_setParam rs v u position p).trans (if_neg same)
    simp only [param?, unchanged, Ne.symm same, false_and, ↓reduceIte]

theorem param?_congr {rs' : Records} (same : rs'.bare? = rs.bare?) (v : VertexId)
    (position : Nat) : rs'.param? v position = rs.param? v position := by
  cases lookup : rs.get? v with
  | none =>
      have missing : rs'.bare? v = none := by rw [same, bare?, lookup]; rfl
      simp [param?, lookup, Option.map_eq_none_iff.mp missing]
  | some r =>
      obtain ⟨s, lookup', agree⟩ := exists_get?_of_bare? same lookup
      simp only [param?_eq lookup, param?_eq lookup', Record.params,
        Record.operation_of_bare agree]

end Records

namespace ParamTable

variable {t : ParamTable} {rs : Records} {slot s : ParamSlot} {p q : Param} {v : VertexId}

/-- The table holds exactly the symbolic parameters of live vertices. -/
def Indexes (t : ParamTable) (rs : Records) : Prop :=
  ∀ slot p, t.holds slot p = true ↔ p.isSymbolic = true ∧ rs.isLive slot.vertex = true ∧
    rs.param? slot.vertex slot.position = some p

theorem Indexes.congr {rs' : Records} (indexes : t.Indexes rs) (same : rs'.bare? = rs.bare?) :
    t.Indexes rs' := by
  intro slot p
  rw [indexes slot p, Records.isLive_congr same, Records.param?_congr same]

/-- What registering a list of parameters from a position on does. -/
theorem Coherent.registerFrom (coherent : t.Coherent) (v : VertexId) (ps : List Param)
    (start : Nat) :
    let t' := (ps.zipIdx start).foldl (fun t (p, position) => (t.register ⟨v, position⟩ p).2) t
    t'.Coherent ∧ ∀ s q, t'.holds s q = true ↔ t.holds s q = true ∨
      (s.vertex = v ∧ q.isSymbolic = true ∧ start ≤ s.position ∧
        ps[s.position - start]? = some q) := by
  induction ps generalizing t start with
  | nil => exact ⟨coherent, by simp⟩
  | cons p ps ih =>
      obtain ⟨coherent', holds⟩ := ih (coherent.register ⟨v, start⟩ p) (start + 1)
      refine ⟨coherent', ?_⟩
      intro s q
      refine (holds s q).trans ?_
      rw [coherent.holds_register, or_assoc]
      refine or_congr Iff.rfl ?_
      obtain ⟨u, i⟩ := s
      simp only [ParamSlot.mk.injEq]
      constructor
      · intro given
        rcases given with ⟨⟨rfl, rfl⟩, rfl, symbolic⟩ | ⟨rfl, symbolic, later, found⟩
        · exact ⟨rfl, symbolic, Nat.le_refl _, by simp⟩
        · refine ⟨rfl, symbolic, by omega, ?_⟩
          obtain ⟨k, rfl⟩ := Nat.exists_eq_add_of_le later
          have shift : start + 1 + k - start = k + 1 := by omega
          have shift' : start + 1 + k - (start + 1) = k := by omega
          rw [shift, List.getElem?_cons_succ]
          rwa [shift'] at found
      · intro given
        obtain ⟨rfl, symbolic, later, found⟩ := given
        obtain ⟨k, rfl⟩ := Nat.exists_eq_add_of_le later
        rw [Nat.add_sub_cancel_left] at found
        cases k with
        | zero =>
            obtain rfl := Option.some.inj found
            exact .inl ⟨⟨rfl, rfl⟩, rfl, symbolic⟩
        | succ k =>
            refine .inr ⟨rfl, symbolic, by omega, ?_⟩
            have shift : start + (k + 1) - (start + 1) = k := by omega
            rw [shift]
            exact found

theorem Coherent.registerAll (coherent : t.Coherent) (v : VertexId) (ps : List Param) :
    (t.registerAll v ps).Coherent := (coherent.registerFrom v ps 0).1

theorem Coherent.holds_registerAll (coherent : t.Coherent) {ps : List Param} :
    (t.registerAll v ps).holds s q = true ↔ t.holds s q = true ∨
      (s.vertex = v ∧ q.isSymbolic = true ∧ ps[s.position]? = some q) := by
  have holds := (coherent.registerFrom v ps 0).2 s q
  simp only [Nat.zero_le, Nat.sub_zero, true_and] at holds
  exact holds

theorem Indexes.push (coherent : t.Coherent) (indexes : t.Indexes rs) {r : Record}
    (kept : r.removed = false) : (t.registerAll rs.size r.params).Indexes (rs.push r) := by
  intro given q
  obtain ⟨u, i⟩ := given
  rw [coherent.holds_registerAll, indexes, Records.isLive_push r kept]
  by_cases new : u = rs.size
  · subst new
    have found : (rs.push r).get? rs.size = some r := by simp [Records.get?_push]
    have missing : rs.isLive rs.size = false := by
      simp [Records.isLive, Records.get?_eq_none_iff.mpr (Nat.le_refl _)]
    simp [Records.param?_eq found, missing]
  · have same : (rs.push r).param? u i = rs.param? u i := by
      simp [Records.param?, Records.get?_push, new]
    simp [new, same]

theorem Indexes.tombstone (coherent : t.Coherent) (indexes : t.Indexes rs) (v : VertexId) :
    (t.purge v).Indexes (rs.tombstone v) := by
  intro given q
  obtain ⟨u, i⟩ := given
  rw [coherent.holds_purge, indexes, Records.isLive_tombstone]
  by_cases same : u = v
  · simp [same]
  · have kept : (rs.tombstone v).param? u i = rs.param? u i := by
      simp [Records.param?, Records.get?_tombstone, Ne.symm same]
    simp [same, kept]

/-- A parameter that is replaced is taken off its slot, and the new one is registered there. -/
theorem Indexes.replace (coherent : t.Coherent) (indexes : t.Indexes rs) {slot : ParamSlot}
    {old : Param} (live : rs.isLive slot.vertex = true)
    (found : rs.param? slot.vertex slot.position = some old) (new : Param) :
    ((t.unregister slot old).2.register slot new).2.Indexes
      (rs.setParam slot.vertex slot.position new) := by
  obtain ⟨v, position⟩ := slot
  intro given q
  obtain ⟨u, i⟩ := given
  rw [(coherent.unregister _ _).holds_register, coherent.holds_unregister, indexes,
    Records.isLive_setParam, Records.param?_setParam found]
  simp only [ParamSlot.mk.injEq]
  by_cases here : u = v ∧ i = position
  · obtain ⟨rfl, rfl⟩ := here
    simp only at live found
    simp only [live, found, Option.some.injEq, true_and, and_self, ↓reduceIte]
    constructor
    · intro given
      rcases given with ⟨⟨-, rfl⟩, other⟩ | ⟨rfl, symbolic⟩
      · exact absurd rfl other
      · exact ⟨symbolic, rfl⟩
    · intro given
      obtain ⟨symbolic, rfl⟩ := given
      exact .inr ⟨rfl, symbolic⟩
  · simp [here]

/-! ## The check of the table -/

theorem checkSlot_iff : checkSlot rs p slot = .ok () ↔
    rs.isLive slot.vertex = true ∧ rs.param? slot.vertex slot.position = some p := by
  unfold checkSlot
  split
  · next dead => simp_all
  · next live =>
      split <;> simp_all

theorem checkIndexed_iff : t.checkIndexed slot p = .ok () ↔
    (p.isSymbolic = true → t.holds slot p = true) := by
  unfold checkIndexed
  split
  · next fine =>
      simp only [true_iff]
      intro symbolic
      simpa [symbolic] using fine
  · next wrong =>
      simp only [reduceCtorEq, false_iff]
      intro all
      apply wrong
      cases symbolic : p.isSymbolic with
      | false => rfl
      | true => simp [all symbolic]

/-- The slots of entries with their numbers, as the reverse index should have them. -/
def numberedSlots (es : List ParamEntry) (start : Nat) : List ParamUse :=
  (es.zipIdx start).flatMap fun (e, id) => e.slots.map fun slot => ⟨slot, id⟩

theorem length_numberedSlots (es : List ParamEntry) (start : Nat) :
    (numberedSlots es start).length = (es.flatMap ParamEntry.slots).length := by
  induction es generalizing start with
  | nil => rfl
  | cons e es ih =>
      have rest := ih (start + 1)
      simp only [numberedSlots, List.zipIdx_cons, List.flatMap_cons, List.length_append,
        List.length_map] at rest ⊢
      rw [rest]

theorem mem_numberedSlots {es : List ParamEntry} {start : Nat} {use : ParamUse} :
    use ∈ numberedSlots es start ↔ start ≤ use.id ∧ Occupied es use.slot (use.id - start) := by
  simp only [numberedSlots, List.mem_flatMap, List.mem_map, Prod.exists,
    List.mk_mem_zipIdx_iff_le_and_getElem?_sub, Occupied]
  constructor
  · intro given
    obtain ⟨e, id, ⟨later, lookup⟩, slot, member, rfl⟩ := given
    exact ⟨later, e, lookup, member⟩
  · intro given
    obtain ⟨later, e, lookup, member⟩ := given
    exact ⟨e, use.id, ⟨later, lookup⟩, use.slot, member, rfl⟩

theorem nodup_numberedSlots {es : List ParamEntry} (unique : ∀ e ∈ es, e.slots.Nodup)
    (start : Nat) : (numberedSlots es start).Nodup := by
  induction es generalizing start with
  | nil => exact List.nodup_nil
  | cons e es ih =>
      have rest := ih (fun x member => unique x (List.mem_cons_of_mem e member)) (start + 1)
      have first : (e.slots.map fun slot => ParamUse.mk slot start).Nodup :=
        (unique e List.mem_cons_self).map fun a b same => (ParamUse.mk.inj same).1
      have shape : numberedSlots (e :: es) start =
          (e.slots.map fun slot => ParamUse.mk slot start) ++ numberedSlots es (start + 1) := by
        simp [numberedSlots, List.zipIdx_cons]
      rw [shape]
      refine first.append rest ?_
      intro use left right
      obtain ⟨slot, -, rfl⟩ := List.mem_map.mp left
      have later := (mem_numberedSlots.mp right).1
      simp only at later
      omega

/-- In a coherent table the reverse index has as many slots as the entries. -/
theorem Coherent.numSlots_eq (coherent : t.Coherent) : t.numSlots = t.uses.length := by
  have perm : (numberedSlots t.entries 0).Perm t.uses := by
    refine (List.perm_ext_iff_of_nodup (nodup_numberedSlots coherent.slots_nodup 0)
      coherent.uses_nodup).mpr ?_
    intro given
    obtain ⟨slot, id⟩ := given
    simp [mem_numberedSlots, coherent.mem_uses]
  rw [numSlots, ← length_numberedSlots t.entries 0, perm.length_eq]

theorem Coherent.checkUses_eq (coherent : t.Coherent) : t.checkUses = .ok () := by
  rw [checkUses]
  refine unless_eq_ok_iff.mpr ⟨not_not.mpr coherent.numSlots_eq, ?_⟩
  refine forM_eq_ok_iff.mpr ?_
  intro given member
  obtain ⟨slot, id⟩ := given
  have occupied := occupied_iff.mpr ((coherent.mem_uses slot id).mp member)
  simp [checkUse, occupied]

/-- A coherent table passes its check exactly when it indexes the records. -/
theorem Coherent.check_iff (coherent : t.Coherent) : t.check rs = .ok () ↔ t.Indexes rs := by
  rw [check, check_seq_iff, check_seq_iff]
  simp only [forM_eq_ok_iff, checkSlot_iff, coherent.checkUses_eq, true_and]
  constructor
  · intro given given' p
    obtain ⟨slots, records⟩ := given
    obtain ⟨v, position⟩ := given'
    constructor
    · intro holds
      obtain ⟨id, numbered, e, lookup, member⟩ :=
        (holds_iff_exists coherent.distinct).mp holds
      obtain rfl : e.param = p := by simpa [lookup] using numbered
      have inside := List.mem_of_getElem? lookup
      exact ⟨coherent.symbolic _ (List.mem_map.mpr ⟨e, inside, rfl⟩),
        slots e inside ⟨v, position⟩ member⟩
    · intro given
      obtain ⟨symbolic, live, found⟩ := given
      obtain ⟨r, live⟩ := Records.isLive_iff.mp live
      have present := (Records.param?_eq live.1 position).symm.trans found
      have checked := records (v, r) (Records.mem_live.mpr live) (p, position)
        (List.mk_mem_zipIdx_iff_getElem?.mpr present)
      exact checkIndexed_iff.mp checked symbolic
  · intro indexes
    constructor
    · intro e inside slot member
      obtain ⟨id, lookup⟩ := List.mem_iff_getElem?.mp inside
      have holds : t.holds slot e.param = true :=
        (holds_iff_exists coherent.distinct).mpr ⟨id, by simp [lookup], e, lookup, member⟩
      exact ((indexes slot e.param).mp holds).2
    · intro given live given' member
      obtain ⟨v, r⟩ := given
      obtain ⟨p, position⟩ := given'
      refine checkIndexed_iff.mpr fun symbolic => ?_
      have live := Records.mem_live.mp live
      have present := List.mk_mem_zipIdx_iff_getElem?.mp member
      exact (indexes ⟨v, position⟩ p).mpr ⟨symbolic, Records.isLive_of_live live,
        (Records.param?_eq live.1 position).trans present⟩

end ParamTable

end CircuitDag
