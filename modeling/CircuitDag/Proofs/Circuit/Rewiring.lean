import CircuitDag.Proofs.Circuit.Reachable

/-!
# Rewiring that is rejected

The neighbours of a vertex are joined one wire position after the other, and each position is looked
at only when its turn comes. A position without both neighbours ends the work, but what has been
joined before it stays. So a rejected rewiring may have written ports of the neighbours; it writes
nothing if the vertex cannot be rewired at all, and in a reachable circuit it never writes.
-/

set_option autoImplicit false

namespace CircuitDag

namespace Records

variable {rs rs' rs'' : Records} {v : VertexId} {r : Record} {k : Nat} {side : Side}
  {source target : Port} {cause : CircuitError}

/-! ## Ports in range -/

/-- Every port that is stored stands at a wire position of a record. -/
structure Ported (rs : Records) : Prop where
  shaped : rs.Shaped
  inRange : ∀ side port port', rs.facing side port = some port' → rs.HasSlot port'

theorem ported_empty : empty.Ported where
  shaped := ⟨fun _ _ found => by simp [Records.get?, empty] at found⟩
  inRange _ _ _ stored := by simp [facing, Records.port?, Records.get?, empty] at stored

theorem Ported.push (ported : rs.Ported) (op : Operation) (qubits clbits : List WireId) :
    (rs.push (Record.unwired op qubits clbits)).Ported where
  shaped := ported.shaped.push (Circuit.Record.length_ports_unwired op qubits clbits)
  inRange side port port' stored := by
    obtain ⟨r, found, port?⟩ := Option.bind_eq_some_iff.mp stored
    rcases get?_of_push found with old | ⟨-, rfl⟩
    · obtain ⟨s, found', bound⟩ :=
        ported.inRange side port port' (Option.bind_eq_some_iff.mpr ⟨r, old, port?⟩)
      exact ⟨s, (get?_push_of_lt _ (lt_size_of_get? found')).trans found', bound⟩
    · have blank : (List.replicate (qubits.length + clbits.length) none)[port.index]?.join =
          some port' := by
        cases side <;> exact port?
      rw [List.getElem?_replicate] at blank
      split at blank <;> cases blank

theorem Ported.link (ported : rs.Ported) (sourceSlot : rs.HasSlot source)
    (targetSlot : rs.HasSlot target) : (rs.link source target).Ported where
  shaped := ported.shaped.link source target
  inRange side port port' stored := by
    refine HasSlot.of_bare? (bare?_link rs source target) ?_
    cases side with
    | incoming =>
        rw [facing_link_incoming ported.shaped sourceSlot targetSlot] at stored
        split at stored
        · exact Option.some.inj stored ▸ sourceSlot
        · exact ported.inRange .incoming port port' stored
    | outgoing =>
        rw [facing_link_outgoing ported.shaped sourceSlot targetSlot] at stored
        split at stored
        · exact Option.some.inj stored ▸ targetSlot
        · exact ported.inRange .outgoing port port' stored

/-! ## Joining neighbours -/

/-- A vertex has both neighbours at a wire position. -/
def SplicedAt (rs : Records) (v : VertexId) (index : Nat) : Prop :=
  ∃ source target, rs.port? .incoming v index = some source ∧
    rs.port? .outgoing v index = some target

/-- The neighbours at the first `k` wire positions of a vertex are joined one after the other. -/
inductive Joined (v : VertexId) (rs : Records) : Nat → Records → Prop where
  | none : Joined v rs 0 rs
  | next {k : Nat} {rs' : Records} {source target : Port} (before : Joined v rs k rs')
      (left : rs'.port? .incoming v k = some source)
      (right : rs'.port? .outgoing v k = some target) : Joined v rs (k + 1) (rs'.link source target)

theorem Joined.bare?_eq (joined : Joined v rs k rs') : rs'.bare? = rs.bare? := by
  induction joined with
  | none => rfl
  | next _ _ _ ih => rw [bare?_link, ih]

theorem Joined.ported (joined : Joined v rs k rs') (ported : rs.Ported) : rs'.Ported := by
  induction joined with
  | none => exact ported
  | next _ left right ih =>
      exact ih.link (ih.inRange .incoming ⟨v, _⟩ _ left) (ih.inRange .outgoing ⟨v, _⟩ _ right)

/-- No port of a vertex leads to the vertex itself. -/
def Apart (rs : Records) (v : VertexId) : Prop :=
  ∀ side index port, rs.port? side v index = some port → port.vertex ≠ v

/-- The record of a vertex stays while its neighbours are joined, if it is not one of them. -/
theorem Joined.kept (joined : Joined v rs k rs') (apart : rs.Apart v) :
    rs'.get? v = rs.get? v ∧ ∀ i < k, rs.SplicedAt v i := by
  induction joined with
  | none => exact ⟨rfl, nofun⟩
  | @next k rs' source target _ left right ih =>
      obtain ⟨same, spliced⟩ := ih
      rw [Records.port?, same] at left right
      refine ⟨(get?_link_of_ne (apart _ _ _ left) (apart _ _ _ right)).trans same, ?_⟩
      intro i bound
      rcases Nat.lt_succ_iff_lt_or_eq.mp bound with earlier | rfl
      · exact spliced i earlier
      · exact ⟨source, target, left, right⟩

theorem rewirePosition_run (rs : Records) (v : VertexId) (index : Nat) :
    (rewirePosition v index).run rs =
      match rs.port? .incoming v index, rs.port? .outgoing v index with
      | some source, some target => .ok () (rs.link source target)
      | _, _ => .error (.invalidVertex v .notSpliced) rs := by
  simp only [rewirePosition, EStateM.run_bind, EStateM.run_get]
  cases rs.port? .incoming v index <;> cases rs.port? .outgoing v index <;> rfl

/-- How far the joining of neighbours at further positions comes. -/
def Outcome (v : VertexId) (rs : Records) (last : Nat) :
    EStateM.Result CircuitError Records Unit → Prop
  | .ok () rs' => Joined v rs last rs'
  | .error cause rs' => ∃ k < last, Joined v rs k rs' ∧ ¬ rs'.SplicedAt v k ∧
      cause = .invalidVertex v .notSpliced

theorem Joined.outcome (joined : Joined v rs k rs') (count : Nat) :
    Outcome v rs (k + count) (((List.range' k count).forM (rewirePosition v)).run rs') := by
  induction count generalizing k rs' with
  | zero => exact joined
  | succ count ih =>
      have unroll : ((List.range' k (count + 1)).forM (rewirePosition v)).run rs' =
          EStateM.run (do rewirePosition v k; (List.range' (k + 1) count).forM (rewirePosition v))
            rs' := rfl
      rw [unroll, EStateM.run_bind, rewirePosition_run]
      cases left : rs'.port? .incoming v k with
      | none =>
          refine ⟨k, by omega, joined, fun spliced => ?_, rfl⟩
          obtain ⟨_, _, left', -⟩ := spliced
          cases left.symm.trans left'
      | some source =>
          cases right : rs'.port? .outgoing v k with
          | none =>
              refine ⟨k, by omega, joined, fun spliced => ?_, rfl⟩
              obtain ⟨_, _, -, right'⟩ := spliced
              cases right.symm.trans right'
          | some target =>
              have further := ih (joined.next left right)
              rwa [Nat.add_right_comm k 1 count] at further

/-- What a rewiring comes to: it is refused at once, or the neighbours are joined as far as the
vertex has both of them. -/
theorem rewireAcross_cases (rs : Records) (v : VertexId) :
    (rs.isLive v = false ∧
      (rewireAcross v).run rs = .error (.invalidVertex v .missing) rs) ∨
    (∃ r, rs.Live v r ∧ r.isAnchor = true ∧
      (rewireAcross v).run rs = .error (.invalidVertex v .anchorNotRewirable) rs) ∨
    ∃ r, rs.Live v r ∧ r.isAnchor = false ∧
      Outcome v rs r.wires.length ((rewireAcross v).run rs) := by
  cases found : rs.get? v with
  | none =>
      refine .inl ⟨by simp [isLive, found], ?_⟩
      simp only [rewireAcross, EStateM.run_bind, EStateM.run_get, found, run_throw]
  | some r =>
      cases removed : r.removed with
      | true =>
          refine .inl ⟨by simp [isLive, found, removed], ?_⟩
          simp only [rewireAcross, EStateM.run_bind, EStateM.run_get, found, removed, ↓reduceIte,
            run_throw]
      | false =>
          refine .inr ?_
          cases anchor : r.isAnchor with
          | true =>
              refine .inl ⟨r, ⟨found, removed⟩, anchor, ?_⟩
              simp only [rewireAcross, EStateM.run_bind, EStateM.run_get, found, removed, anchor,
                Bool.false_eq_true, ↓reduceIte, run_throw]
          | false =>
              have outcome := (Joined.none : Joined v rs 0 rs).outcome r.wires.length
              rw [Nat.zero_add, ← List.range_eq_range'] at outcome
              refine .inr ⟨r, ⟨found, removed⟩, anchor, ?_⟩
              simp only [rewireAcross, EStateM.run_bind, EStateM.run_get, found, removed, anchor,
                Bool.false_eq_true, ↓reduceIte]
              exact outcome

/-! ## Rejections -/

/-- A vertex on two wires that has its neighbours on the first wire only. -/
def halfSpliced : Records :=
  ((((empty.push (Record.unwired { element := .input } [0] [])).push
    (Record.unwired { element := .output } [0] [])).push
    (Record.unwired { element := .cx } [0, 1] [])).link ⟨0, 0⟩ ⟨2, 0⟩).link ⟨2, 0⟩ ⟨1, 0⟩

theorem ported_halfSpliced : halfSpliced.Ported := by
  have pushed := ((ported_empty.push { element := .input } [0] []).push
    { element := .output } [0] []).push { element := .cx } [0, 1] []
  exact (pushed.link ⟨_, rfl, by decide⟩ ⟨_, rfl, by decide⟩).link
    ⟨_, rfl, by decide⟩ ⟨_, rfl, by decide⟩

theorem rewireAcross_halfSpliced : (rewireAcross 2).run halfSpliced =
    .error (.invalidVertex 2 .notSpliced) (halfSpliced.link ⟨0, 0⟩ ⟨1, 0⟩) := rfl

/-- A rejected rewiring may write: here the neighbours on the first wire have become each other's
neighbours before the second wire is found to have none. -/
theorem rejected_rewiring_writes : halfSpliced.Ported ∧ ∃ cause rs',
    (rewireAcross 2).run halfSpliced = .error cause rs' ∧ rs' ≠ halfSpliced := by
  refine ⟨ported_halfSpliced, _, _, rewireAcross_halfSpliced, fun same => ?_⟩
  have port := congrArg (fun rs : Records => rs.facing .outgoing ⟨0, 0⟩) same
  exact absurd port (by decide)

end Records

namespace Circuit

variable {c : Circuit} {v : VertexId} {cause : CircuitError} {rs' : Records}

/-- In a reachable circuit a rewiring is rejected only where nothing has been written. -/
theorem Reachable.rejected_rewiring (reachable : c.Reachable)
    (rejected : (Records.rewireAcross v).run c.records = .error cause rs') : rs' = c.records := by
  rcases c.records.rewireAcross_cases v with ⟨-, run⟩ | ⟨r, -, -, run⟩ | ⟨r, live, operation, -⟩
  · cases run.symm.trans rejected
    rfl
  · cases run.symm.trans rejected
    rfl
  · obtain ⟨line, layout⟩ := reachable.laidOut
    cases (layout.rewireAcross_run live operation).1.symm.trans rejected

end Circuit

namespace Records

variable {rs rs' : Records} {v : VertexId} {cause : CircuitError}

/-- A rejected rewiring writes nothing if the vertex is missing, removed or an anchor. Otherwise it
has come to a wire position without both neighbours, and it leaves exactly the joins at the
positions before that one; all ports stay in range, and nothing but ports is written. If the vertex
is not its own neighbour, the position is the first one that lacks a neighbour from the start. In a
reachable circuit there is none, and a rejected rewiring writes nothing. -/
theorem rejected_rewiring_stops_midway (ported : rs.Ported)
    (rejected : (rewireAcross v).run rs = .error cause rs') :
    rs'.Ported ∧ rs'.bare? = rs.bare? ∧
    ((rs.isLive v = false ∧ cause = .invalidVertex v .missing ∧ rs' = rs) ∨
      (∃ r, rs.Live v r ∧ r.isAnchor = true ∧ cause = .invalidVertex v .anchorNotRewirable ∧
        rs' = rs) ∨
      ∃ r k, rs.Live v r ∧ r.isAnchor = false ∧ cause = .invalidVertex v .notSpliced ∧
        k < r.wires.length ∧ Joined v rs k rs' ∧ ¬ rs'.SplicedAt v k ∧
        (rs.Apart v → (∀ i < k, rs.SplicedAt v i) ∧ ¬ rs.SplicedAt v k)) ∧
    ∀ c : Circuit, c.Reachable → c.records = rs → rs' = rs := by
  have still : ∀ c : Circuit, c.Reachable → c.records = rs → rs' = rs := by
    rintro c reachable rfl
    exact reachable.rejected_rewiring rejected
  rcases rs.rewireAcross_cases v with
    ⟨dead, run⟩ | ⟨r, live, anchor, run⟩ | ⟨r, live, operation, outcome⟩
  · cases run.symm.trans rejected
    exact ⟨ported, rfl, .inl ⟨dead, rfl, rfl⟩, still⟩
  · cases run.symm.trans rejected
    exact ⟨ported, rfl, .inr (.inl ⟨r, live, anchor, rfl, rfl⟩), still⟩
  · rw [rejected] at outcome
    obtain ⟨k, bound, joined, unspliced, rfl⟩ := outcome
    refine ⟨joined.ported ported, joined.bare?_eq,
      .inr (.inr ⟨r, k, live, operation, rfl, bound, joined, unspliced, fun apart => ?_⟩), still⟩
    obtain ⟨same, spliced⟩ := joined.kept apart
    refine ⟨spliced, fun both => unspliced ?_⟩
    rwa [SplicedAt, Records.port?, Records.port?, same]

/-- The vertex that is spliced on its first wire only stops at its second wire. -/
theorem rejected_rewiring_stops_at_second_wire :
    ∃ r k, halfSpliced.Live 2 r ∧ k < r.wires.length ∧
      Joined 2 halfSpliced k (halfSpliced.link ⟨0, 0⟩ ⟨1, 0⟩) ∧
      halfSpliced.SplicedAt 2 0 ∧ ¬ halfSpliced.SplicedAt 2 k := by
  have apart : halfSpliced.Apart 2 := by
    rintro side (_ | _ | index) port stored <;> cases side <;> cases stored <;> decide
  obtain ⟨-, -, reasons, -⟩ :=
    rejected_rewiring_stops_midway ported_halfSpliced rewireAcross_halfSpliced
  rcases reasons with ⟨-, other, -⟩ | ⟨r, -, -, other, -⟩ |
    ⟨r, k, live, -, -, bound, joined, -, first⟩
  · cases other
  · cases other
  · exact ⟨r, k, live, bound, joined, ⟨_, _, rfl, rfl⟩, (first apart).2⟩

end Records

end CircuitDag
