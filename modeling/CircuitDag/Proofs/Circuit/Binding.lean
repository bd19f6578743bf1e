import CircuitDag.Proofs.Circuit.Reachable
import CircuitDag.Proofs.Param.Substitution

/-!
# Binding a symbol

The slots to change are read from the table before the first change, and the changes are then made
one by one in the table and in the records. As every slot is found once and with the parameter that
is stored there, together they replace each parameter that mentions the symbol, wherever it stands.
-/

set_option autoImplicit false

namespace CircuitDag

/-- The record with other parameters, given by position and old parameter. -/
def Record.mapParams (f : Nat → Param → Param) (r : Record) : Record :=
  { r with operation.params? := r.operation.params?.map (·.mapIdx f) }

/-- The record with a number for a symbol in each parameter that mentions it. -/
def Record.bindSymbol (name : String) (number : Binary64) (r : Record) : Record :=
  r.mapParams fun _ p => if name ∈ p.symbols then p.bind name number else p

section Parameters

variable {f g : Nat → Param → Param} {r : Record}

theorem Record.params_mapParams (f : Nat → Param → Param) (r : Record) :
    (r.mapParams f).params = r.params.mapIdx f := by
  simp only [mapParams, params, Operation.params]
  cases r.operation.params? <;> rfl

theorem Record.mapParams_mapParams (f g : Nat → Param → Param) (r : Record) :
    (r.mapParams f).mapParams g = r.mapParams fun i p => g i (f i p) := by
  simp only [mapParams, Option.map_map, Function.comp_def, List.mapIdx_mapIdx]

theorem Record.mapParams_congr (same : ∀ i p, r.params[i]? = some p → f i p = g i p) :
    r.mapParams f = r.mapParams g := by
  simp only [params, Operation.params] at same
  simp only [mapParams]
  cases list : r.operation.params? with
  | none => rfl
  | some ps =>
      rw [list] at same
      have lists : ps.mapIdx f = ps.mapIdx g := by
        refine List.ext_getElem? fun i => ?_
        rw [List.getElem?_mapIdx, List.getElem?_mapIdx]
        cases found : ps[i]? with
        | none => rfl
        | some p => exact congrArg some (same i p found)
      simp only [Option.map_some, lists]

theorem Record.mapParams_eq_self (same : ∀ i p, r.params[i]? = some p → f i p = p) :
    r.mapParams f = r := by
  have lists : ∀ ps : List Param, ps.mapIdx (fun _ p => p) = ps := fun ps =>
    List.ext_getElem? fun i => by simp [List.getElem?_mapIdx]
  rw [mapParams_congr same, mapParams]
  simp only [lists, Option.map_id']

/-- Replacing one parameter, as a change of all parameters. -/
theorem Records.get?_setParam_eq (rs : Records) (slot : ParamSlot) (new : Param) (u : VertexId) :
    (rs.setParam slot.vertex slot.position new).get? u = (rs.get? u).map
      (Record.mapParams fun i p => if slot = ⟨u, i⟩ then new else p) := by
  obtain ⟨v, position⟩ := slot
  have lists : ∀ ps : List Param,
      ps.set position new = ps.mapIdx fun i p => if position = i then new else p := by
    intro ps
    refine List.ext_getElem? fun i => ?_
    rw [List.getElem?_set, List.getElem?_mapIdx]
    by_cases here : position = i
    · subst here
      by_cases bound : position < ps.length <;> simp [bound]
    · simp [here]
  rw [get?_setParam]
  cases rs.get? u with
  | none => split <;> rfl
  | some r =>
      by_cases same : v = u
      · subst same
        simp [Record.mapParams, lists]
      · have kept := Record.mapParams_eq_self (r := r)
          (f := fun i p => if (⟨v, position⟩ : ParamSlot) = ⟨u, i⟩ then new else p)
          fun i p _ => if_neg fun slots => same (ParamSlot.mk.inj slots).1
        rw [if_neg same, Option.map_some, kept]

/-- In each parameter that mentions it, a symbol is replaced after another one as well as before. -/
theorem Record.bindSymbol_comm {a b : String} (different : a ≠ b) (x y : Binary64) (r : Record) :
    (r.bindSymbol a x).bindSymbol b y = (r.bindSymbol b y).bindSymbol a x := by
  rw [bindSymbol, bindSymbol, bindSymbol, bindSymbol, mapParams_mapParams, mapParams_mapParams]
  congr 1
  funext i p
  by_cases first : a ∈ p.symbols <;> by_cases second : b ∈ p.symbols <;>
    simp [first, second, Param.mem_symbols_bind, different, different.symm,
      Param.bind_comm different]

end Parameters

namespace Circuit

variable {c c' : Circuit} {line : WireId → List VertexId} {name : String} {number : Binary64}
  {v : VertexId} {r : Record} {p : Param} {slot : ParamSlot}

/-! ## The slots of a symbol -/

/-- The parameters of live vertices that mention a symbol, by vertex and position. -/
def slotsMentioning (c : Circuit) (name : String) : List ParamSlot :=
  c.records.live.flatMap fun (v, r) =>
    (r.params.zipIdx.filter fun (p, _) => p.symbols.contains name).map fun (_, i) => ⟨v, i⟩

theorem mem_slotsMentioning : slot ∈ c.slotsMentioning name ↔
    ∃ p, c.records.isLive slot.vertex = true ∧
      c.records.param? slot.vertex slot.position = some p ∧ name ∈ p.symbols := by
  simp only [slotsMentioning, List.mem_flatMap, List.mem_map, List.mem_filter, Prod.exists,
    Records.mem_live, List.mk_mem_zipIdx_iff_getElem?, List.contains_iff_mem]
  constructor
  · intro given
    obtain ⟨v, r, live, p, i, ⟨found, mentioned⟩, rfl⟩ := given
    exact ⟨p, Records.isLive_of_live live, (Records.param?_eq live.1 i).trans found, mentioned⟩
  · intro given
    obtain ⟨p, live, found, mentioned⟩ := given
    obtain ⟨r, live⟩ := Records.isLive_iff.mp live
    rw [Records.param?_eq live.1] at found
    exact ⟨slot.vertex, r, live, p, slot.position, ⟨found, mentioned⟩, rfl⟩

theorem nodup_slotsMentioning (c : Circuit) (name : String) : (c.slotsMentioning name).Nodup := by
  refine List.nodup_flatMap.mpr ⟨fun entry _ => ?_, ?_⟩
  · have positions : (entry.2.params.zipIdx.map Prod.snd).Nodup := by
      rw [List.zipIdx_map_snd]
      exact List.nodup_range' ..
    refine .of_map ParamSlot.position ?_
    rw [List.map_map]
    exact positions.sublist (List.filter_sublist.map _)
  · refine (List.pairwise_map.mp (Records.nodup_live c.records)).imp fun {x y} different => ?_
    intro slot left right
    obtain ⟨_, -, rfl⟩ := List.mem_map.mp left
    obtain ⟨_, -, same⟩ := List.mem_map.mp right
    exact different (ParamSlot.mk.inj same).1.symm

/-- The table finds exactly the parameters of live vertices that mention a symbol. -/
theorem Layout.mem_slots_iff (layout : c.Layout line) : (p, slot) ∈ c.slotsOfSymbol name ↔
    c.records.isLive slot.vertex = true ∧
      c.records.param? slot.vertex slot.position = some p ∧ name ∈ p.symbols := by
  rw [mem_slotsOfSymbol layout.coherent.distinct, layout.indexed]
  constructor
  · intro given
    obtain ⟨⟨-, live, found⟩, mentioned⟩ := given
    exact ⟨live, found, mentioned⟩
  · intro given
    obtain ⟨live, found, mentioned⟩ := given
    exact ⟨⟨Param.isSymbolic_of_mem_symbols mentioned, live, found⟩, mentioned⟩

theorem Layout.length_slotsOfSymbol (layout : c.Layout line) (name : String) :
    (c.slotsOfSymbol name).length = (c.slotsMentioning name).length := by
  have perm : ((c.slotsOfSymbol name).map Prod.snd).Perm (c.slotsMentioning name) := by
    refine (List.perm_ext_iff_of_nodup (layout.nodup_slots name)
      (nodup_slotsMentioning c name)).mpr fun slot => ?_
    simp only [List.mem_map, Prod.exists, exists_eq_right, layout.mem_slots_iff,
      mem_slotsMentioning]
  simpa using perm.length_eq

/-! ## Replacing slot by slot -/

/-- The parameter at a slot after some slots have got new parameters one by one. -/
def replaced (f : Param → Param) (slots : List (Param × ParamSlot)) (slot : ParamSlot)
    (p : Param) : Param :=
  slots.foldl (fun p entry => if entry.2 = slot then f entry.1 else p) p

theorem foldl_rebind_frame (f : Param → Param) (slots : List (Param × ParamSlot)) (c : Circuit) :
    let c' := slots.foldl (fun c (p, slot) => c.rebind slot p (f p)) c
    c' = { c with records := c'.records, params := c'.params } := by
  induction slots generalizing c with
  | nil => rfl
  | cons entry slots ih => exact (ih (c.rebind entry.2 entry.1 (f entry.1))).trans rfl

theorem get?_foldl_rebind (f : Param → Param) (slots : List (Param × ParamSlot)) (c : Circuit)
    (v : VertexId) :
    (slots.foldl (fun c (p, slot) => c.rebind slot p (f p)) c).records.get? v =
      (c.records.get? v).map (Record.mapParams fun i p => replaced f slots ⟨v, i⟩ p) := by
  -- The replacements compose on the record that was there first, so it is left free.
  induction slots generalizing c with
  | nil =>
      have kept : ∀ r : Record, (r.mapParams fun i p => replaced f [] ⟨v, i⟩ p) = r := fun r =>
        Record.mapParams_eq_self fun _ _ _ => rfl
      simp [funext kept]
  | cons entry slots ih =>
      obtain ⟨q, slot⟩ := entry
      rw [List.foldl_cons, ih]
      change ((c.records.setParam slot.vertex slot.position (f q)).get? v).map _ = _
      rw [Records.get?_setParam_eq, Option.map_map]
      congr 1
      funext r
      rw [Function.comp_apply, Record.mapParams_mapParams]
      rfl

/-- If only one parameter is listed for a slot, the slot gets what is made of it, or it keeps its
own. -/
theorem replaced_eq (f : Param → Param) {slots : List (Param × ParamSlot)}
    (only : ∀ q, (q, slot) ∈ slots → q = p) (own : Param) :
    replaced f slots slot own = if (p, slot) ∈ slots then f p else own := by
  induction slots generalizing own with
  | nil => rfl
  | cons entry slots ih =>
      obtain ⟨q, other⟩ := entry
      have rest := ih fun q' member => only q' (List.mem_cons_of_mem _ member)
      rw [replaced, List.foldl_cons]
      refine (rest _).trans ?_
      by_cases same : other = slot
      · subst same
        obtain rfl := only q List.mem_cons_self
        simp
      · simp [same, Ne.symm same]

/-! ## Binding -/

theorem Layout.replaced_slots (layout : c.Layout line) (found : c.records.get? v = some r) {i : Nat}
    (position : r.params[i]? = some p) (f : Param → Param) :
    replaced f (c.slotsOfSymbol name) ⟨v, i⟩ p =
      if r.removed = false ∧ name ∈ p.symbols then f p else p := by
  have stored : c.records.param? v i = some p := (Records.param?_eq found i).trans position
  have live : c.records.isLive v = true ↔ r.removed = false := by simp [Records.isLive, found]
  rw [replaced_eq f fun q member =>
    Option.some.inj ((layout.mem_slots_iff.mp member).2.1.symm.trans stored)]
  simp [layout.mem_slots_iff, stored, live]

/-- Binding a symbol binds it in all parameters of all live vertices. -/
theorem Layout.get?_bindSymbol (layout : c.Layout line) (name : String) (number : Binary64)
    (v : VertexId) :
    ((Circuit.bindSymbol name number).after c).records.get? v =
      (c.records.get? v).map fun r => if r.removed then r else r.bindSymbol name number := by
  refine (get?_foldl_rebind (fun p => p.bind name number) (c.slotsOfSymbol name) c v).trans ?_
  cases found : c.records.get? v with
  | none => rfl
  | some r =>
      rw [Option.map_some, Option.map_some, Option.some.injEq]
      cases removed : r.removed with
      | true =>
          refine Record.mapParams_eq_self fun i p position => ?_
          rw [layout.replaced_slots found position, removed]
          simp
      | false =>
          refine Record.mapParams_congr fun i p position => ?_
          rw [layout.replaced_slots found position, removed]
          simp

theorem Layout.not_mentioned_after_bindSymbol (layout : c.Layout line)
    (live : ((Circuit.bindSymbol name number).after c).records.Live v r) :
    ∀ p ∈ r.params, name ∉ p.symbols := by
  obtain ⟨found, kept⟩ := live
  rw [layout.get?_bindSymbol] at found
  obtain ⟨old, -, rfl⟩ := Option.map_eq_some_iff.mp found
  intro p member mentioned
  cases removed : old.removed with
  | true => simp [removed] at kept
  | false =>
      simp only [removed, Bool.false_eq_true, ↓reduceIte, Record.bindSymbol,
        Record.params_mapParams, List.mem_mapIdx] at member
      obtain ⟨i, bound, rfl⟩ := member
      split at mentioned
      · exact (Param.mem_symbols_bind.mp mentioned).2 rfl
      · next absent => exact absent mentioned

/-- Binding a symbol yields the number of parameters of live vertices that mention it, puts the
number into each of them and changes nothing else. The symbol is then gone, and the table passes its
check. The order in which two symbols are bound makes no difference to any record. -/
theorem bindSymbol_binds_everywhere (reachable : c.Reachable) (name : String)
    (number : Binary64) :
    (∃ c', (bindSymbol name number).run c = .ok (c.slotsMentioning name).length c' ∧
      c' = { c with records := c'.records, params := c'.params } ∧
      (∀ v, c'.records.get? v =
        (c.records.get? v).map fun r => if r.removed then r else r.bindSymbol name number) ∧
      (∀ v r, c'.records.Live v r → ∀ p ∈ r.params, name ∉ p.symbols) ∧
      c'.params.Indexes c'.records ∧ c'.params.check c'.records = .ok ()) ∧
    ∀ other number', other ≠ name →
      ((bindSymbol other number').after ((bindSymbol name number).after c)).records =
        ((bindSymbol name number).after ((bindSymbol other number').after c)).records := by
  obtain ⟨line, layout⟩ := reachable.laidOut
  have bound := layout.bindSymbol name number
  constructor
  · refine ⟨(bindSymbol name number).after c, ?_, foldl_rebind_frame _ (c.slotsOfSymbol name) c,
      layout.get?_bindSymbol name number, fun v r => layout.not_mentioned_after_bindSymbol,
      bound.indexed, bound.coherent.check_iff.mpr bound.indexed⟩
    rw [← layout.length_slotsOfSymbol]
    rfl
  · intro other number' different
    refine Records.eq_of_get? fun v => ?_
    rw [bound.get?_bindSymbol, layout.get?_bindSymbol,
      (layout.bindSymbol other number').get?_bindSymbol, layout.get?_bindSymbol]
    cases c.records.get? v with
    | none => rfl
    | some r =>
        cases removed : r.removed with
        | true => simp [removed]
        | false =>
            have kept : ∀ (a : String) (x : Binary64), (r.bindSymbol a x).removed = false :=
              fun _ _ => removed
            simp [removed, kept, Record.bindSymbol_comm different]

/-- A symbol alone and as a divisor: the quotient by zero is kept, with the other symbol. -/
theorem bindSymbol_binds_divisor :
    let turn (p : Param) : Change := .addOperation { element := .rz, params? := some [p] } [0] []
    let c := (turn (.div (.symbol "b") (.symbol "a"))).after
      ((turn (.symbol "a")).after (blank 1 0 Binary64.zero))
    (∃ c', (bindSymbol "a" Binary64.zero).run c = .ok 2 c' ∧
      ∀ v r, c'.records.Live v r → ∀ p ∈ r.params, "a" ∉ p.symbols) ∧
    ((bindSymbol "b" Binary64.two).after ((bindSymbol "a" Binary64.zero).after c)).records =
      ((bindSymbol "a" Binary64.zero).after ((bindSymbol "b" Binary64.two).after c)).records := by
  intro turn c
  have reached : c.Reachable := ((Reachable.blank 1 0 Binary64.zero).change _).change _
  obtain ⟨⟨c', run, -, -, gone, -⟩, order⟩ :=
    bindSymbol_binds_everywhere reached "a" Binary64.zero
  have two : (c.slotsMentioning "a").length = 2 := by decide +kernel
  exact ⟨⟨c', two ▸ run, gone⟩, order "b" Binary64.two (by decide)⟩

end Circuit

end CircuitDag
