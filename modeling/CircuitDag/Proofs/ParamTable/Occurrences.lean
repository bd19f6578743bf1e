import CircuitDag.Proofs.ParamTable.Coherence
import Mathlib.Data.Finset.Card
import Mathlib.Data.Finset.Filter
import Mathlib.Data.Finset.Image

/-!
# The parameter table as a set of occurrences

An occurrence is a parameter at a slot. Every sequence of calls to a table leaves a set of
occurrences, and all that the table answers can be read off that set and off the order in which the
parameters were first registered.
-/

set_option autoImplicit false

namespace CircuitDag.ParamTable

variable {t : ParamTable} {slot s : ParamSlot} {p q : Param} {v : VertexId} {id : Nat}

/-! ## Calls -/

/-- A call that changes a table. -/
inductive Call where
  | register (slot : ParamSlot) (p : Param)
  | unregister (slot : ParamSlot) (p : Param)
  | purge (v : VertexId)

/-- The answer of a call with the table that it leaves. Purging answers nothing. -/
def Call.run (t : ParamTable) : Call → Option Bool × ParamTable
  | register slot p => let (answer, t) := t.register slot p; (some answer, t)
  | unregister slot p => let (answer, t) := t.unregister slot p; (some answer, t)
  | purge v => (none, t.purge v)

def Call.after (t : ParamTable) (call : Call) : ParamTable := (call.run t).2

/-- The table after some calls to an empty one. -/
def afterCalls (calls : List Call) : ParamTable := calls.foldl Call.after empty

/-- The occurrences that some calls leave, and the parameters that they have registered, each where
it was registered first. -/
structure Ledger where
  occurrences : Finset (ParamSlot × Param) := ∅
  registered : List Param := []

def Ledger.run (l : Ledger) : Call → Option Bool × Ledger
  | .register slot p =>
      (some p.isSymbolic,
        if p.isSymbolic then
          { occurrences := insert (slot, p) l.occurrences
            registered := if p ∈ l.registered then l.registered else l.registered ++ [p] }
        else l)
  | .unregister slot p =>
      (some ((slot, p) ∈ l.occurrences), { l with occurrences := l.occurrences.erase (slot, p) })
  | .purge v => (none, { l with occurrences := l.occurrences.filter fun o => o.1.vertex ≠ v })

def Ledger.after (l : Ledger) (call : Call) : Ledger := (l.run call).2

/-- The parameters that occur at some slot. -/
def Ledger.occurring (l : Ledger) : Finset Param := l.occurrences.image Prod.snd

def Ledger.afterCalls (calls : List Call) : Ledger := calls.foldl Ledger.after {}

/-! ## One call -/

/-- A table keeps exactly what a ledger tells. -/
structure Keeps (t : ParamTable) (l : Ledger) : Prop where
  coherent : t.Coherent
  holds_iff : ∀ slot p, t.holds slot p = true ↔ (slot, p) ∈ l.occurrences
  params_eq : t.entries.map ParamEntry.param = l.registered

theorem params_intern (t : ParamTable) (p : Param) :
    (t.intern p).2.entries.map ParamEntry.param =
      if p ∈ t.entries.map ParamEntry.param then t.entries.map ParamEntry.param
      else t.entries.map ParamEntry.param ++ [p] := by
  unfold intern
  cases found : t.id? p with
  | none => rw [if_neg (id?_eq_none_iff.mp found)]; simp
  | some id =>
      obtain ⟨e, lookup, rfl⟩ := exists_of_id? found
      rw [if_pos (List.mem_map.mpr ⟨e, List.mem_of_getElem? lookup, rfl⟩)]

theorem params_register (t : ParamTable) (slot : ParamSlot) (symbolic : p.isSymbolic = true) :
    (t.register slot p).2.entries.map ParamEntry.param =
      if p ∈ t.entries.map ParamEntry.param then t.entries.map ParamEntry.param
      else t.entries.map ParamEntry.param ++ [p] := by
  rw [register_eq t slot symbolic, params_occupy, params_intern]

theorem params_unregister (t : ParamTable) (slot : ParamSlot) (p : Param) :
    (t.unregister slot p).2.entries.map ParamEntry.param = t.entries.map ParamEntry.param := by
  unfold unregister
  split
  · rfl
  · split
    · exact params_dropSlot ..
    · rfl

theorem params_purge (t : ParamTable) (v : VertexId) :
    (t.purge v).entries.map ParamEntry.param = t.entries.map ParamEntry.param :=
  (foldl_dropSlot _ t.entries).1

theorem register_answer (t : ParamTable) (slot : ParamSlot) (p : Param) :
    (t.register slot p).1 = p.isSymbolic := by
  cases symbolic : p.isSymbolic with
  | true => rw [register_eq t slot symbolic]
  | false => simp [register, symbolic]

/-- A parameter is taken off a slot exactly if it is there. -/
theorem Coherent.unregister_answer (coherent : t.Coherent) :
    (t.unregister slot p).1 = true ↔ t.holds slot p = true := by
  rw [holds_iff_exists coherent.distinct]
  cases found : t.id? p with
  | none =>
      have answer : (t.unregister slot p).1 = false := by rw [ParamTable.unregister, found]
      rw [answer]
      refine iff_of_false Bool.false_ne_true fun given => ?_
      obtain ⟨id, numbered, -⟩ := given
      exact id?_eq_none_iff.mp found (List.mem_of_getElem? numbered)
  | some id =>
      have numbered := (id?_eq_some_iff coherent.distinct).mp found
      have answer : (t.unregister slot p).1 = t.occupied slot id := by
        simp only [ParamTable.unregister, found]
        split
        · next occupied => exact occupied.symm
        · next free => exact (Bool.eq_false_of_not_eq_true free).symm
      rw [answer]
      refine occupied_iff.trans ⟨fun occupied => ⟨id, numbered, occupied⟩, fun given => ?_⟩
      obtain ⟨j, numbered', occupied⟩ := given
      have same := (id?_eq_some_iff coherent.distinct).mpr numbered'
      rwa [Option.some.inj (found.symm.trans same)]

theorem keeps_empty : empty.Keeps {} where
  coherent := coherent_empty
  holds_iff slot p := by simp [holds, slots?, empty]
  params_eq := rfl

variable {l : Ledger}

/-- Every call changes the table as it changes the ledger. -/
theorem Keeps.after (keeps : t.Keeps l) (call : Call) : (call.after t).Keeps (l.after call) := by
  cases call with
  | register slot p =>
      cases symbolic : p.isSymbolic with
      | false =>
          simpa [Call.after, Call.run, Ledger.after, Ledger.run, register, symbolic] using keeps
      | true =>
          refine ⟨keeps.coherent.register slot p, fun s q => ?_, ?_⟩
          · refine keeps.coherent.holds_register.trans ?_
            rw [keeps.holds_iff]
            simp [Ledger.after, Ledger.run, symbolic, or_comm]
          · refine (params_register t slot symbolic).trans ?_
            rw [keeps.params_eq]
            simp [Ledger.after, Ledger.run, symbolic]
  | unregister slot p =>
      refine ⟨keeps.coherent.unregister slot p, fun s q => ?_, ?_⟩
      · refine keeps.coherent.holds_unregister.trans ?_
        rw [keeps.holds_iff]
        simp [Ledger.after, Ledger.run, and_comm]
      · exact (params_unregister t slot p).trans keeps.params_eq
  | purge v =>
      refine ⟨keeps.coherent.purge v, fun s q => ?_, ?_⟩
      · refine keeps.coherent.holds_purge.trans ?_
        rw [keeps.holds_iff]
        simp [Ledger.after, Ledger.run]
      · exact (params_purge t v).trans keeps.params_eq

theorem Keeps.answer_eq (keeps : t.Keeps l) (call : Call) : (call.run t).1 = (l.run call).1 := by
  cases call with
  | register slot p => exact congrArg some (register_answer t slot p)
  | unregister slot p =>
      have agree := keeps.coherent.unregister_answer.trans (keeps.holds_iff slot p)
      exact congrArg some (Bool.eq_iff_iff.mpr (agree.trans decide_eq_true_iff.symm))
  | purge v => rfl

/-! ## Sequences of calls -/

theorem Keeps.afterAll (keeps : t.Keeps l) (calls : List Call) :
    (calls.foldl Call.after t).Keeps (calls.foldl Ledger.after l) := by
  induction calls generalizing t l with
  | nil => exact keeps
  | cons call calls ih => exact ih (keeps.after call)

theorem keeps_afterCalls (calls : List Call) :
    (afterCalls calls).Keeps (Ledger.afterCalls calls) := keeps_empty.afterAll calls

/-- Parameters are only added to those that have been registered. -/
theorem Ledger.registered_prefix (l : Ledger) (calls : List Call) :
    l.registered <+: (calls.foldl Ledger.after l).registered := by
  induction calls generalizing l with
  | nil => exact List.prefix_refl _
  | cons call calls ih =>
      refine List.IsPrefix.trans ?_ (ih (l.after call))
      cases call with
      | register slot p =>
          simp only [Ledger.after, Ledger.run]
          split
          · split
            · exact List.prefix_refl _
            · exact List.prefix_append ..
          · exact List.prefix_refl _
      | unregister _ _ | purge _ => exact List.prefix_refl _

/-! ## What a table tells -/

theorem Keeps.slots?_eq_none_iff (keeps : t.Keeps l) : t.slots? p = none ↔ p ∉ l.registered := by
  rw [← keeps.params_eq, slots?, Option.map_eq_none_iff, List.find?_eq_none]
  simp

theorem Keeps.slots_spec (keeps : t.Keeps l) {slots : List ParamSlot}
    (found : t.slots? p = some slots) :
    slots.Nodup ∧ ∀ slot, slot ∈ slots ↔ (slot, p) ∈ l.occurrences := by
  constructor
  · obtain ⟨e, lookup, rfl⟩ := Option.map_eq_some_iff.mp found
    exact keeps.coherent.slots_nodup e (List.mem_of_find?_eq_some lookup)
  · intro slot
    rw [← keeps.holds_iff, holds, found]
    exact List.contains_iff_mem.symm

theorem Keeps.id?_eq_some_iff (keeps : t.Keeps l) :
    t.id? p = some id ↔ l.registered[id]? = some p := by
  rw [← keeps.params_eq]
  exact ParamTable.id?_eq_some_iff keeps.coherent.distinct

theorem Coherent.id?_of_getElem? (coherent : t.Coherent) {e : ParamEntry}
    (lookup : t.entries[id]? = some e) : t.id? e.param = some id := by
  rw [ParamTable.id?_eq_some_iff coherent.distinct, List.getElem?_map, lookup]
  rfl

/-- The use of a parameter on a vertex can be told from the position and the parameter. -/
theorem Coherent.use_eq (coherent : t.Coherent) {use use' : ParamUse} {e e' : ParamEntry}
    (lookup : t.entries[use.id]? = some e) (lookup' : t.entries[use'.id]? = some e')
    (vertex : use.slot.vertex = use'.slot.vertex)
    (position : use.slot.position = use'.slot.position)
    (param : e.param = e'.param) : use = use' := by
  obtain ⟨⟨u, i⟩, id⟩ := use
  obtain ⟨⟨u', i'⟩, id'⟩ := use'
  obtain rfl : u = u' := vertex
  obtain rfl : i = i' := position
  have numbered : t.id? e.param = some id := coherent.id?_of_getElem? lookup
  have numbered' : t.id? e'.param = some id' := coherent.id?_of_getElem? lookup'
  rw [param, numbered'] at numbered
  rw [Option.some.inj numbered]

/-- The parameters on a vertex are those of its slots, each with its position. -/
theorem Keeps.onVertex_spec (keeps : t.Keeps l) (v : VertexId) :
    (t.onVertex v).Nodup ∧ ∀ i p, (i, p) ∈ t.onVertex v ↔ (⟨v, i⟩, p) ∈ l.occurrences := by
  have coherent := keeps.coherent
  constructor
  · simp only [onVertex, List.filterMap_filter, decide_eq_true_eq]
    refine coherent.uses_nodup.filterMap fun use use' pair here here' => ?_
    split at here
    · next vertex =>
        split at here'
        · next vertex' =>
            obtain ⟨e, lookup, rfl⟩ := Option.map_eq_some_iff.mp here
            obtain ⟨e', lookup', same⟩ := Option.map_eq_some_iff.mp here'
            obtain ⟨position, param⟩ := Prod.mk.inj same
            exact coherent.use_eq lookup lookup'
              (vertex.trans vertex'.symm) position.symm param.symm
        · cases here'
    · cases here
  · intro i p
    rw [← keeps.holds_iff, holds_iff_exists coherent.distinct]
    simp only [onVertex, List.mem_filterMap, List.mem_filter, decide_eq_true_eq,
      Option.map_eq_some_iff, Prod.mk.injEq, List.getElem?_map]
    constructor
    · intro given
      obtain ⟨⟨⟨u, j⟩, id⟩, ⟨used, rfl⟩, e, lookup, rfl, rfl⟩ := given
      exact ⟨id, ⟨e, lookup, rfl⟩, (coherent.mem_uses _ _).mp used⟩
    · intro given
      obtain ⟨id, ⟨e, lookup, rfl⟩, occupied⟩ := given
      exact ⟨⟨⟨v, i⟩, id⟩, ⟨(coherent.mem_uses _ _).mpr occupied, rfl⟩, e, lookup, rfl, rfl⟩

theorem Coherent.slots?_of_mem (coherent : t.Coherent) {e : ParamEntry} (member : e ∈ t.entries) :
    t.slots? e.param = some e.slots := by
  cases found : t.entries.find? (·.param = e.param) with
  | none => exact absurd (decide_eq_true rfl) (List.find?_eq_none.mp found e member)
  | some e' =>
      have same : e'.param = e.param := by simpa using List.find?_some found
      have equal := List.inj_on_of_nodup_map coherent.distinct (List.mem_of_find?_eq_some found)
        member same
      rw [slots?, found, equal]
      rfl

/-- The entry of a parameter has slots exactly if the parameter occurs. -/
theorem Keeps.occupied_iff (keeps : t.Keeps l) {e : ParamEntry} (member : e ∈ t.entries) :
    e.slots.isEmpty = false ↔ e.param ∈ l.occurring := by
  have held := (keeps.slots_spec (keeps.coherent.slots?_of_mem member)).2
  rw [List.isEmpty_eq_false_iff_exists_mem, exists_congr held]
  simp [Ledger.occurring]

/-- The parameters that occur are listed in the order in which they were registered. -/
theorem Keeps.params_occurring (keeps : t.Keeps l) :
    t.occurring.map (fun (_, e) => e.param) = l.registered.filter (· ∈ l.occurring) := by
  have entries : t.occurring.map (fun (_, e) => e.param) =
      (t.entries.filter fun e => !e.slots.isEmpty).map ParamEntry.param := by
    rw [← map_snd_occurring, List.map_map]
    rfl
  rw [entries, ← keeps.params_eq, List.filter_map]
  refine congrArg _ (List.filter_congr fun e member => ?_)
  rw [Function.comp_apply, Bool.eq_iff_iff, Bool.not_eq_true', decide_eq_true_iff]
  exact keeps.occupied_iff member

theorem Coherent.mem_occurring (coherent : t.Coherent) {e : ParamEntry}
    (member : (id, e) ∈ t.occurring) :
    t.id? e.param = some id ∧ t.slots? e.param = some e.slots := by
  obtain ⟨⟨e', j⟩, listed, same⟩ := List.mem_map.mp member
  obtain ⟨rfl, rfl⟩ := Prod.mk.inj same
  have lookup := List.mk_mem_zipIdx_iff_getElem?.mp (List.mem_filter.mp listed).1
  exact ⟨coherent.id?_of_getElem? lookup, coherent.slots?_of_mem (List.mem_of_getElem? lookup)⟩

theorem Keeps.numParameters_eq (keeps : t.Keeps l) : t.numParameters = l.occurring.card := by
  have listed : t.numParameters = (l.registered.filter (· ∈ l.occurring)).length := by
    rw [← keeps.params_occurring, List.length_map]
    rfl
  have unique : (l.registered.filter (· ∈ l.occurring)).Nodup := by
    rw [← keeps.params_eq]
    exact keeps.coherent.distinct.filter _
  rw [listed, ← List.toFinset_card_of_nodup unique]
  congr 1
  ext p
  rw [List.mem_toFinset, List.mem_filter, decide_eq_true_iff]
  refine and_iff_right_of_imp fun occurs => ?_
  obtain ⟨⟨slot, p⟩, member, rfl⟩ := Finset.mem_image.mp occurs
  obtain ⟨id, numbered, -⟩ := (holds_iff_exists keeps.coherent.distinct).mp
    ((keeps.holds_iff slot p).mpr member)
  exact keeps.params_eq ▸ List.mem_of_getElem? numbered

/-- Whatever calls are made, the table answers from the set of occurrences that they leave: every
call answers what the set tells, a parameter that was ever registered has exactly its slots and
other parameters have none, a vertex has each of its parameters once since no use is kept twice in
the reverse index, and the parameters that occur are listed once, in the order of their first
registrations. Numbers follow the same order, so later calls do not change them or give them to
other parameters. -/
theorem calls_keep_occurrences (calls : List Call) :
    let t := afterCalls calls
    let l := Ledger.afterCalls calls
    (∀ call : Call, (call.run t).1 = (l.run call).1) ∧
    (∀ p, (t.slots? p = none ↔ p ∉ l.registered) ∧ ∀ slots, t.slots? p = some slots →
      slots.Nodup ∧ ∀ slot, slot ∈ slots ↔ (slot, p) ∈ l.occurrences) ∧
    (t.uses.Nodup ∧ ∀ v, (t.onVertex v).Nodup ∧
      ∀ position p, (position, p) ∈ t.onVertex v ↔ (⟨v, position⟩, p) ∈ l.occurrences) ∧
    (t.occurring.map (fun (_, e) => e.param) = l.registered.filter (· ∈ l.occurring) ∧
      (∀ id e, (id, e) ∈ t.occurring → t.id? e.param = some id ∧ t.slots? e.param = some e.slots) ∧
      t.numParameters = l.occurring.card) ∧
    l.registered.Nodup ∧
    (∀ p id, t.id? p = some id ↔ l.registered[id]? = some p) ∧
    ∀ more p id, t.id? p = some id → ∀ q, (afterCalls (calls ++ more)).id? q = some id ↔ q = p := by
  intro t l
  have keeps : t.Keeps l := keeps_afterCalls calls
  refine ⟨keeps.answer_eq, fun p => ⟨keeps.slots?_eq_none_iff, fun slots => keeps.slots_spec⟩,
    ⟨keeps.coherent.uses_nodup, keeps.onVertex_spec⟩,
    ⟨keeps.params_occurring, fun _ _ => keeps.coherent.mem_occurring, keeps.numParameters_eq⟩,
    keeps.params_eq ▸ keeps.coherent.distinct,
    fun p id => keeps.id?_eq_some_iff, ?_⟩
  intro more p id numbered q
  have later : (afterCalls (calls ++ more)).Keeps (more.foldl Ledger.after l) := by
    rw [afterCalls, List.foldl_append]
    exact keeps.afterAll more
  obtain ⟨rest, shape⟩ := l.registered_prefix more
  have position := keeps.id?_eq_some_iff.mp numbered
  rw [later.id?_eq_some_iff, ← shape,
    List.getElem?_append_left (List.getElem?_eq_some_iff.mp position).1, position,
    Option.some.injEq, eq_comm]

/-- Two parameters at one slot, one of them registered twice and taken off once, and a number that
is not kept. -/
theorem calls_keep_shared_slot :
    let calls : List Call := [.register ⟨3, 2⟩ (.symbol "b"), .register ⟨3, 2⟩ (.symbol "a"),
      .register ⟨3, 2⟩ (.symbol "b"), .register ⟨7, 1⟩ .pi, .register ⟨7, 1⟩ (.symbol "a"),
      .unregister ⟨3, 2⟩ (.symbol "b")]
    ((Call.unregister ⟨3, 2⟩ (.symbol "b")).run (afterCalls calls)).1 = some false ∧
      (∀ position p, (position, p) ∈ (afterCalls calls).onVertex 3 ↔
        position = 2 ∧ p = .symbol "a") ∧
      (afterCalls calls).numParameters = 1 ∧
      ∀ more, (afterCalls (calls ++ more)).id? (.symbol "a") = some 1 := by
  intro calls
  obtain ⟨answers, -, ⟨-, vertices⟩, ⟨-, -, count⟩, -, numbers, kept⟩ :=
    calls_keep_occurrences calls
  refine ⟨(answers _).trans ?_, fun position p => ((vertices 3).2 position p).trans ?_,
    count.trans ?_, fun more => ?_⟩
  · decide
  · have left : (Ledger.afterCalls calls).occurrences =
        {(⟨3, 2⟩, .symbol "a"), (⟨7, 1⟩, .symbol "a")} := by decide
    simp [left]
  · decide
  · exact (kept more (.symbol "a") 1 ((numbers _ _).mpr (by decide)) (.symbol "a")).mpr rfl

end CircuitDag.ParamTable
