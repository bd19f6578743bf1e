import CircuitDag.ParamTable
import Mathlib.Data.List.Nodup

/-!
# The parameter table as a set of slots

What registering, unregistering, purging and renumbering do to the question whether a parameter is
registered at a slot. The two indexes of the table stay coherent under all of them.
-/

set_option autoImplicit false

namespace CircuitDag.ParamTable

variable {t : ParamTable} {es : List ParamEntry} {slot s : ParamSlot} {p q : Param} {id j : Nat}

/-- A slot is among those of the entry with a number. -/
def Occupied (es : List ParamEntry) (slot : ParamSlot) (id : Nat) : Prop :=
  ∃ e, es[id]? = some e ∧ slot ∈ e.slots

theorem occupied_iff : t.occupied slot id = true ↔ Occupied t.entries slot id := by
  unfold occupied Occupied
  cases t.entries[id]? <;> simp

/-- The two indexes agree: entries have different symbolic parameters, no slot is listed twice, and
the reverse index has exactly the slots of the entries. -/
structure Coherent (t : ParamTable) : Prop where
  distinct : (t.entries.map ParamEntry.param).Nodup
  symbolic : ∀ p ∈ t.entries.map ParamEntry.param, p.isSymbolic = true
  slots_nodup : ∀ e ∈ t.entries, e.slots.Nodup
  uses_nodup : t.uses.Nodup
  mem_uses : ∀ slot id, ⟨slot, id⟩ ∈ t.uses ↔ Occupied t.entries slot id

theorem coherent_empty : empty.Coherent :=
  ⟨by simp [empty], by simp [empty], by simp [empty], by simp [empty], by simp [empty, Occupied]⟩

/-! ## Numbers -/

theorem exists_of_id? (found : t.id? p = some id) : ∃ e, t.entries[id]? = some e ∧ e.param = p := by
  obtain ⟨bound, same, -⟩ := List.findIdx?_eq_some_iff_getElem.mp found
  exact ⟨t.entries[id], List.getElem?_eq_getElem bound, by simpa using same⟩

theorem id?_eq_none_iff : t.id? p = none ↔ p ∉ t.entries.map ParamEntry.param := by
  simp [id?, List.findIdx?_eq_none_iff]

theorem id?_eq_some_iff (distinct : (t.entries.map ParamEntry.param).Nodup) :
    t.id? p = some id ↔ (t.entries.map ParamEntry.param)[id]? = some p := by
  rw [List.getElem?_map, Option.map_eq_some_iff]
  refine ⟨exists_of_id?, ?_⟩
  intro given
  obtain ⟨e, found, rfl⟩ := given
  cases lookup : t.id? e.param with
  | none =>
      have member : e.param ∈ t.entries.map ParamEntry.param :=
        List.mem_map.mpr ⟨e, List.mem_of_getElem? found, rfl⟩
      exact absurd member (id?_eq_none_iff.mp lookup)
  | some j =>
      obtain ⟨e', found', same⟩ := exists_of_id? lookup
      have left : (t.entries.map ParamEntry.param)[j]? = some e.param := by simp [found', same]
      have right : (t.entries.map ParamEntry.param)[id]? = some e.param := by simp [found]
      obtain ⟨bound, left⟩ := List.getElem?_eq_some_iff.mp left
      obtain ⟨bound', right⟩ := List.getElem?_eq_some_iff.mp right
      rw [distinct.getElem_inj_iff.mp (left.trans right.symm)]

theorem holds_iff_exists (distinct : (t.entries.map ParamEntry.param).Nodup) :
    t.holds s q = true ↔
      ∃ id, (t.entries.map ParamEntry.param)[id]? = some q ∧ Occupied t.entries s id := by
  unfold holds slots?
  cases found : t.entries.find? (·.param = q) with
  | none =>
      simp only [Option.map_none, Bool.false_eq_true, false_iff, not_exists, not_and]
      intro id entry _
      obtain ⟨e, found', rfl⟩ := Option.map_eq_some_iff.mp ((List.getElem?_map ..).symm.trans entry)
      simpa using List.find?_eq_none.mp found e (List.mem_of_getElem? found')
  | some e =>
      have same : e.param = q := by simpa using List.find?_some found
      obtain ⟨id, position⟩ := List.mem_iff_getElem?.mp (List.mem_of_find?_eq_some found)
      have numbered : (t.entries.map ParamEntry.param)[id]? = some q := by
        simp [position, same]
      simp only [Option.map_some, List.contains_iff_mem]
      constructor
      · intro member
        exact ⟨id, numbered, e, position, member⟩
      · intro given
        obtain ⟨j, numbered', e', position', member⟩ := given
        obtain rfl := Option.some.inj (((id?_eq_some_iff distinct).mpr numbered).symm.trans
          ((id?_eq_some_iff distinct).mpr numbered'))
        obtain rfl := Option.some.inj (position.symm.trans position')
        exact member

/-- The entries with slots, without their numbers. -/
theorem map_snd_occurring (t : ParamTable) :
    t.occurring.map Prod.snd = t.entries.filter fun e => !e.slots.isEmpty := by
  have entries := List.zipIdx_map_fst 0 t.entries
  conv_rhs => rw [← entries, List.filter_map]
  rw [occurring, List.map_map]
  rfl

/-! ## Taking slots away -/

@[simp] theorem params_dropSlot (es : List ParamEntry) (use : ParamUse) :
    (dropSlot es use).map ParamEntry.param = es.map ParamEntry.param := by
  apply List.ext_getElem?
  intro j
  simp only [dropSlot, List.getElem?_map, List.getElem?_modify]
  cases es[j]? with
  | none => rfl
  | some e => by_cases same : use.id = j <;> simp [same]

theorem occupied_dropSlot {use : ParamUse} :
    Occupied (dropSlot es use) s j ↔ Occupied es s j ∧ use ≠ ⟨s, j⟩ := by
  obtain ⟨slot, id⟩ := use
  simp only [Occupied, dropSlot, List.getElem?_modify, ne_eq, ParamUse.mk.injEq]
  cases lookup : es[j]? with
  | none => simp
  | some e =>
      by_cases same : id = j
      · simp [same, eq_comm (a := s)]
      · simp [same]

theorem nodup_dropSlot {use : ParamUse} (unique : ∀ e ∈ es, e.slots.Nodup) :
    ∀ e ∈ dropSlot es use, e.slots.Nodup := by
  intro e member
  obtain ⟨j, position⟩ := List.mem_iff_getElem?.mp member
  rw [dropSlot, List.getElem?_modify] at position
  obtain ⟨e', found, rfl⟩ := Option.map_eq_some_iff.mp position
  have unique := unique e' (List.mem_of_getElem? found)
  by_cases same : use.id = j
  · simpa [same] using unique.filter _
  · simpa [same] using unique

theorem foldl_dropSlot (uses : List ParamUse) (es : List ParamEntry) :
    (uses.foldl dropSlot es).map ParamEntry.param = es.map ParamEntry.param ∧
      (∀ s j, Occupied (uses.foldl dropSlot es) s j ↔ Occupied es s j ∧ ⟨s, j⟩ ∉ uses) ∧
      ((∀ e ∈ es, e.slots.Nodup) → ∀ e ∈ uses.foldl dropSlot es, e.slots.Nodup) := by
  induction uses generalizing es with
  | nil => simp
  | cons use uses ih =>
      obtain ⟨params, occupied, unique⟩ := ih (dropSlot es use)
      refine ⟨by simpa using params, ?_, fun all => unique (nodup_dropSlot all)⟩
      intro s j
      rw [List.foldl_cons, occupied, occupied_dropSlot, List.mem_cons, not_or, and_assoc,
        ne_comm]

theorem Coherent.unregister (coherent : t.Coherent) (slot : ParamSlot) (p : Param) :
    (t.unregister slot p).2.Coherent := by
  unfold ParamTable.unregister
  split
  · exact coherent
  · next id found =>
      split
      · constructor
        · simpa using coherent.distinct
        · simpa using coherent.symbolic
        · exact nodup_dropSlot coherent.slots_nodup
        · exact coherent.uses_nodup.filter _
        · intro s j
          rw [List.mem_filter, coherent.mem_uses, occupied_dropSlot, decide_eq_true_eq, ne_comm]
      · exact coherent

theorem Coherent.holds_unregister (coherent : t.Coherent) :
    (t.unregister slot p).2.holds s q = true ↔ t.holds s q = true ∧ ¬ (s = slot ∧ q = p) := by
  rw [holds_iff_exists (coherent.unregister slot p).distinct,
    holds_iff_exists coherent.distinct]
  unfold ParamTable.unregister
  split
  · next missing =>
      constructor
      · intro given
        obtain ⟨id, numbered, occupied⟩ := given
        refine ⟨⟨id, numbered, occupied⟩, ?_⟩
        intro given
        obtain ⟨-, rfl⟩ := given
        exact id?_eq_none_iff.mp missing (List.mem_of_getElem? numbered)
      · exact And.left
  · next id found =>
      have numbered := (id?_eq_some_iff coherent.distinct).mp found
      have same : ∀ j, (t.entries.map ParamEntry.param)[j]? = some p → j = id := by
        intro j numbered'
        exact Option.some.inj (((id?_eq_some_iff coherent.distinct).mpr numbered').symm.trans found)
      split
      · simp only [params_dropSlot, occupied_dropSlot, ne_eq, ParamUse.mk.injEq]
        constructor
        · intro given
          obtain ⟨j, numbered', occupied, other⟩ := given
          refine ⟨⟨j, numbered', occupied⟩, ?_⟩
          intro given
          obtain ⟨rfl, rfl⟩ := given
          exact other ⟨rfl, (same j numbered').symm⟩
        · intro given
          obtain ⟨⟨j, numbered', occupied⟩, other⟩ := given
          refine ⟨j, numbered', occupied, ?_⟩
          intro given
          obtain ⟨rfl, rfl⟩ := given
          exact other ⟨rfl, Option.some.inj (numbered'.symm.trans numbered)⟩
      · next free =>
          constructor
          · intro given
            obtain ⟨j, numbered', occupied⟩ := given
            refine ⟨⟨j, numbered', occupied⟩, ?_⟩
            intro given
            obtain ⟨rfl, rfl⟩ := given
            rw [same j numbered'] at occupied
            exact free (occupied_iff.mpr occupied)
          · exact And.left

theorem Coherent.purge (coherent : t.Coherent) (v : VertexId) : (t.purge v).Coherent := by
  obtain ⟨params, occupied, unique⟩ :=
    foldl_dropSlot (t.uses.filter (·.slot.vertex = v)) t.entries
  constructor
  · simpa [ParamTable.purge, params] using coherent.distinct
  · simpa only [ParamTable.purge, params] using coherent.symbolic
  · exact unique coherent.slots_nodup
  · exact coherent.uses_nodup.filter _
  · intro s j
    simp only [ParamTable.purge, occupied, List.mem_filter, coherent.mem_uses,
      decide_eq_true_eq, not_and]
    constructor
    · intro given
      obtain ⟨inside, other⟩ := given
      exact ⟨inside, fun _ => other⟩
    · intro given
      obtain ⟨inside, other⟩ := given
      exact ⟨inside, other inside⟩

theorem Coherent.holds_purge (coherent : t.Coherent) {v : VertexId} :
    (t.purge v).holds s q = true ↔ t.holds s q = true ∧ s.vertex ≠ v := by
  obtain ⟨params, occupied, -⟩ := foldl_dropSlot (t.uses.filter (·.slot.vertex = v)) t.entries
  rw [holds_iff_exists (coherent.purge v).distinct, holds_iff_exists coherent.distinct]
  simp only [ParamTable.purge, params, occupied, List.mem_filter, coherent.mem_uses,
    decide_eq_true_eq, not_and]
  constructor
  · intro given
    obtain ⟨id, numbered, inside, other⟩ := given
    exact ⟨⟨id, numbered, inside⟩, other inside⟩
  · intro given
    obtain ⟨⟨id, numbered, inside⟩, other⟩ := given
    exact ⟨id, numbered, inside, fun _ => other⟩

theorem getElem?_foldl_dropSlot (uses : List ParamUse) (es : List ParamEntry) (j : Nat) :
    (uses.foldl dropSlot es)[j]? = es[j]?.map fun e =>
      { e with slots := e.slots.filter fun slot => ⟨slot, j⟩ ∉ uses } := by
  induction uses generalizing es with
  | nil => simp
  | cons use uses ih =>
      rw [List.foldl_cons, ih, dropSlot, List.getElem?_modify]
      cases es[j]? with
      | none => rfl
      | some e =>
          obtain ⟨slot, id⟩ := use
          by_cases same : id = j
          · simp [same, List.filter_filter, Bool.and_comm]
          · simp [same, Ne.symm same]

/-- Purging takes the slots of the vertex out of all entries. -/
theorem Coherent.purge_eq (coherent : t.Coherent) (v : VertexId) :
    t.purge v =
      { entries := t.entries.map fun e => { e with slots := e.slots.filter (·.vertex ≠ v) }
        uses := t.uses.filter (·.slot.vertex ≠ v) } := by
  rw [ParamTable.purge, ParamTable.mk.injEq]
  refine ⟨List.ext_getElem? fun j => ?_, rfl⟩
  rw [getElem?_foldl_dropSlot, List.getElem?_map]
  cases lookup : t.entries[j]? with
  | none => rfl
  | some e =>
      have slots : ∀ slot ∈ e.slots,
          (⟨slot, j⟩ ∉ t.uses.filter (·.slot.vertex = v) ↔ slot.vertex ≠ v) := by
        intro slot member
        have used := (coherent.mem_uses slot j).mpr ⟨e, lookup, member⟩
        simp [used]
      rw [Option.map_some, Option.map_some, List.filter_congr fun slot member =>
        decide_eq_decide.mpr (slots slot member)]

/-- Purging several vertices takes their slots out, in whatever order. -/
theorem Coherent.foldl_purge (coherent : t.Coherent) (vs : List VertexId) :
    vs.foldl ParamTable.purge t =
      { entries := t.entries.map fun e => { e with slots := e.slots.filter (·.vertex ∉ vs) }
        uses := t.uses.filter (·.slot.vertex ∉ vs) } := by
  induction vs generalizing t with
  | nil => simp
  | cons v vs ih =>
      have keeps : ∀ u, (decide (u ∉ vs) && decide (u ≠ v)) = decide (u ∉ v :: vs) := by
        intro u
        simp [Bool.and_comm]
      rw [List.foldl_cons, ih (coherent.purge v), coherent.purge_eq v]
      simp only [List.map_map, List.filter_filter, Function.comp_def, keeps]

/-! ## Registering -/

theorem occupied_append_new (es : List ParamEntry) (p : Param) :
    Occupied (es ++ [⟨p, []⟩]) s j ↔ Occupied es s j := by
  simp only [Occupied, List.getElem?_append]
  split
  · rfl
  · next beyond =>
      rw [List.getElem?_singleton, List.getElem?_eq_none (Nat.le_of_not_lt beyond)]
      split <;> simp

theorem Coherent.intern (coherent : t.Coherent) (symbolic : p.isSymbolic = true) :
    (t.intern p).2.Coherent := by
  unfold ParamTable.intern
  cases found : t.id? p with
  | some id => exact coherent
  | none =>
      have fresh := id?_eq_none_iff.mp found
      constructor
      · rw [List.map_append]
        exact coherent.distinct.append (by simp) (by simpa using fresh)
      · intro q member
        rw [List.map_append, List.mem_append] at member
        rcases member with old | new
        · exact coherent.symbolic q old
        · rw [List.mem_singleton.mp new]
          exact symbolic
      · intro e member
        rcases List.mem_append.mp member with old | new
        · exact coherent.slots_nodup e old
        · simp [List.mem_singleton.mp new]
      · exact coherent.uses_nodup
      · intro s j
        rw [occupied_append_new, coherent.mem_uses]

/-- The number that is told is the one that the parameter has from then on. -/
theorem id?_intern (t : ParamTable) (p : Param) : (t.intern p).2.id? p = some (t.intern p).1 := by
  unfold ParamTable.intern
  cases found : t.id? p with
  | some id => exact found
  | none =>
      unfold id? at found ⊢
      simp [List.findIdx?_append, found]

theorem holds_intern (t : ParamTable) (p : Param) : (t.intern p).2.holds s q = t.holds s q := by
  unfold ParamTable.intern
  split
  · rfl
  · simp only [holds, slots?, List.find?_append]
    cases t.entries.find? (·.param = q) with
    | some e => rfl
    | none => by_cases same : p = q <;> simp [same]

theorem params_occupy (t : ParamTable) (slot : ParamSlot) (id : Nat) :
    (t.occupy slot id).entries.map ParamEntry.param = t.entries.map ParamEntry.param := by
  unfold occupy
  split
  · rfl
  · apply List.ext_getElem?
    intro j
    simp only [List.getElem?_map, List.getElem?_modify]
    cases t.entries[j]? with
    | none => rfl
    | some e => by_cases same : id = j <;> simp [same]

theorem occupied_occupy (bound : id < t.entries.length) :
    Occupied (t.occupy slot id).entries s j ↔
      Occupied t.entries s j ∨ (⟨s, j⟩ : ParamUse) = ⟨slot, id⟩ := by
  unfold occupy
  split
  · next already =>
      refine ⟨.inl, ?_⟩
      intro given
      rcases given with inside | same
      · exact inside
      · obtain ⟨rfl, rfl⟩ := ParamUse.mk.inj same
        exact occupied_iff.mp already
  · simp only [Occupied, List.getElem?_modify, ParamUse.mk.injEq]
    by_cases same : id = j
    · subst same
      rw [List.getElem?_eq_getElem bound]
      simp [or_comm]
    · simp [same, Ne.symm same]

theorem Coherent.occupy (coherent : t.Coherent) (bound : id < t.entries.length) :
    (t.occupy slot id).Coherent := by
  constructor
  · rw [params_occupy]
    exact coherent.distinct
  · rw [params_occupy]
    exact coherent.symbolic
  · intro e member
    unfold ParamTable.occupy at member
    split at member
    · exact coherent.slots_nodup e member
    · next free =>
        obtain ⟨j, position⟩ := List.mem_iff_getElem?.mp member
        rw [List.getElem?_modify] at position
        obtain ⟨e', found, rfl⟩ := Option.map_eq_some_iff.mp position
        have unique := coherent.slots_nodup e' (List.mem_of_getElem? found)
        by_cases same : id = j
        · subst same
          have fresh : slot ∉ e'.slots := fun inside =>
            free (occupied_iff.mpr ⟨e', found, inside⟩)
          simpa using (insertSorted_perm ParamSlot.less fresh).symm.nodup
            (List.nodup_cons.mpr ⟨fresh, unique⟩)
        · simpa [same] using unique
  · unfold ParamTable.occupy
    split
    · exact coherent.uses_nodup
    · next free =>
        apply coherent.uses_nodup.append (List.nodup_singleton _)
        rw [List.disjoint_singleton, coherent.mem_uses]
        exact fun inside => free (occupied_iff.mpr inside)
  · intro s j
    rw [occupied_occupy bound]
    unfold ParamTable.occupy
    split
    · next already =>
        rw [coherent.mem_uses]
        refine ⟨.inl, ?_⟩
        intro given
        rcases given with inside | same
        · exact inside
        · obtain ⟨rfl, rfl⟩ := ParamUse.mk.inj same
          exact occupied_iff.mp already
    · rw [List.mem_append, coherent.mem_uses, List.mem_singleton]

theorem register_eq (t : ParamTable) (slot : ParamSlot) (symbolic : p.isSymbolic = true) :
    t.register slot p = (true, (t.intern p).2.occupy slot (t.intern p).1) := by
  rw [register, if_pos symbolic]

theorem Coherent.register (coherent : t.Coherent) (slot : ParamSlot) (p : Param) :
    (t.register slot p).2.Coherent := by
  cases symbolic : p.isSymbolic with
  | false => simpa [ParamTable.register, symbolic] using coherent
  | true =>
      obtain ⟨e, lookup, -⟩ := exists_of_id? (id?_intern t p)
      rw [register_eq t slot symbolic]
      exact (coherent.intern symbolic).occupy (List.getElem?_eq_some_iff.mp lookup).1

theorem Coherent.holds_register (coherent : t.Coherent) :
    (t.register slot p).2.holds s q = true ↔
      t.holds s q = true ∨ (s = slot ∧ q = p ∧ p.isSymbolic = true) := by
  cases symbolic : p.isSymbolic with
  | false => simp [ParamTable.register, symbolic]
  | true =>
      have found := id?_intern t p
      obtain ⟨e, lookup, -⟩ := exists_of_id? found
      have bound := (List.getElem?_eq_some_iff.mp lookup).1
      have coherent' := coherent.intern symbolic
      have numbered := (id?_eq_some_iff coherent'.distinct).mp found
      rw [register_eq t slot symbolic, holds_iff_exists (coherent'.occupy bound).distinct,
        ← holds_intern t p, holds_iff_exists coherent'.distinct, params_occupy]
      simp only [occupied_occupy bound, ParamUse.mk.injEq, and_true]
      constructor
      · intro given
        obtain ⟨j, numbered', inside | ⟨rfl, rfl⟩⟩ := given
        · exact .inl ⟨j, numbered', inside⟩
        · exact .inr ⟨rfl, Option.some.inj (numbered'.symm.trans numbered)⟩
      · intro given
        rcases given with ⟨j, numbered', inside⟩ | ⟨rfl, rfl⟩
        · exact ⟨j, numbered', .inl inside⟩
        · exact ⟨_, numbered, .inr ⟨rfl, rfl⟩⟩

/-! ## Renumbering -/

theorem params_renumber (t : ParamTable) (target? : VertexId → Option VertexId) :
    (t.renumber target?).entries.map ParamEntry.param = t.entries.map ParamEntry.param := by
  simp [ParamTable.renumber, Function.comp_def]

theorem occupied_renumber {target? : VertexId → Option VertexId} :
    Occupied (t.renumber target?).entries s j ↔
      ∃ a, Occupied t.entries a j ∧ a.renumber? target? = some s := by
  simp only [Occupied, ParamTable.renumber, List.getElem?_map, Option.map_eq_some_iff]
  constructor
  · intro given
    obtain ⟨_, ⟨e, lookup, rfl⟩, inside⟩ := given
    obtain ⟨a, inside, found⟩ : ∃ a ∈ e.slots, a.renumber? target? = some s := by
      simpa using inside
    exact ⟨a, ⟨e, lookup, inside⟩, found⟩
  · intro given
    obtain ⟨a, ⟨e, lookup, inside⟩, found⟩ := given
    exact ⟨_, ⟨e, lookup, rfl⟩, by simpa using ⟨a, inside, found⟩⟩

theorem slot_of_renumber? {target? : VertexId → Option VertexId}
    (injective : ∀ u v x, target? u = some x → target? v = some x → u = v) (a b s : ParamSlot)
    (left : a.renumber? target? = some s) (right : b.renumber? target? = some s) : a = b := by
  obtain ⟨u, i⟩ := a
  obtain ⟨v, k⟩ := b
  obtain ⟨x, found, rfl⟩ := Option.map_eq_some_iff.mp left
  obtain ⟨y, found', same⟩ := Option.map_eq_some_iff.mp right
  simp only [ParamSlot.mk.injEq] at same found found'
  obtain ⟨rfl, rfl⟩ := same
  rw [injective u v y found found']

/-- The new slots of a parameter are those of its slots that have one. -/
theorem Coherent.slots_renumber_perm (coherent : t.Coherent) {target? : VertexId → Option VertexId}
    (injective : ∀ u v x, target? u = some x → target? v = some x → u = v) {e : ParamEntry}
    (member : e ∈ t.entries) :
    (sortedSet ParamSlot.less (e.slots.filterMap (·.renumber? target?))).Perm
      (e.slots.filterMap (·.renumber? target?)) :=
  sortedSet_perm ParamSlot.less <| (coherent.slots_nodup e member).filterMap
    fun a b s left right => slot_of_renumber? injective a b s left right

theorem Coherent.renumber (coherent : t.Coherent) {target? : VertexId → Option VertexId}
    (injective : ∀ u v x, target? u = some x → target? v = some x → u = v) :
    (t.renumber target?).Coherent := by
  have slotInjective := slot_of_renumber? injective
  constructor
  · rw [params_renumber]
    exact coherent.distinct
  · rw [params_renumber]
    exact coherent.symbolic
  · intro e member
    obtain ⟨e', inside, rfl⟩ := List.mem_map.mp member
    refine (coherent.slots_renumber_perm injective inside).nodup_iff.mpr ?_
    exact (coherent.slots_nodup e' inside).filterMap fun a b s left right =>
      slotInjective a b s left right
  · apply coherent.uses_nodup.filterMap
    intro given given' use left right
    obtain ⟨a, i⟩ := given
    obtain ⟨b, k⟩ := given'
    obtain ⟨s, found, rfl⟩ := Option.map_eq_some_iff.mp left
    obtain ⟨s', found', same⟩ := Option.map_eq_some_iff.mp right
    simp only [ParamUse.mk.injEq] at same found found'
    obtain ⟨rfl, rfl⟩ := same
    rw [slotInjective a b s' found found']
  · intro s j
    rw [occupied_renumber]
    simp only [ParamTable.renumber, List.mem_filterMap, Option.map_eq_some_iff, ParamUse.mk.injEq]
    constructor
    · intro given
      obtain ⟨⟨a, i⟩, member, s', found, rfl, rfl⟩ := given
      exact ⟨a, (coherent.mem_uses a i).mp member, found⟩
    · intro given
      obtain ⟨a, occupied, found⟩ := given
      exact ⟨⟨a, j⟩, (coherent.mem_uses a j).mpr occupied, s, found, rfl, rfl⟩

theorem Coherent.holds_renumber (coherent : t.Coherent) {target? : VertexId → Option VertexId}
    (injective : ∀ u v x, target? u = some x → target? v = some x → u = v) :
    (t.renumber target?).holds s q = true ↔
      ∃ a, t.holds a q = true ∧ a.renumber? target? = some s := by
  rw [holds_iff_exists (coherent.renumber injective).distinct]
  simp only [holds_iff_exists coherent.distinct, params_renumber, occupied_renumber]
  constructor
  · intro given
    obtain ⟨id, numbered, a, occupied, found⟩ := given
    exact ⟨a, ⟨id, numbered, occupied⟩, found⟩
  · intro given
    obtain ⟨a, ⟨id, numbered, occupied⟩, found⟩ := given
    exact ⟨id, numbered, a, occupied, found⟩

/-! ## Tables by construction -/

/-- The tables that arise from registering and unregistering parameters and purging vertices. -/
inductive Built : ParamTable → Prop where
  | empty : Built empty
  | register {t : ParamTable} (before : Built t) (slot : ParamSlot) (p : Param) :
      Built (t.register slot p).2
  | unregister {t : ParamTable} (before : Built t) (slot : ParamSlot) (p : Param) :
      Built (t.unregister slot p).2
  | purge {t : ParamTable} (before : Built t) (v : VertexId) : Built (t.purge v)

/-- In every such table the two indexes agree. -/
theorem Built.coherent (built : t.Built) : t.Coherent := by
  induction built with
  | empty => exact coherent_empty
  | register _ slot p ih => exact ih.register slot p
  | unregister _ slot p ih => exact ih.unregister slot p
  | purge _ v ih => exact ih.purge v

theorem Coherent.id_lt (coherent : t.Coherent) {use : ParamUse} (member : use ∈ t.uses) :
    use.id < t.entries.length := by
  obtain ⟨e, position, -⟩ := (coherent.mem_uses use.slot use.id).mp member
  exact (List.getElem?_eq_some_iff.mp position).1

end CircuitDag.ParamTable
