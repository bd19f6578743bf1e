import CircuitDag.Proofs.Circuit.Yields

/-!
# The operands of operations

Validation compares the operands and parameters of an operation with what its element takes. Later
changes keep these numbers, so a circuit accepts each of its own operations. Anchors never have
parameters.
-/

set_option autoImplicit false

namespace CircuitDag

/-- The number of parameters is the one that the element takes, and so are the numbers of operands
of operations. -/
structure Record.Suits (r : Record) : Prop where
  numQubits : r.isAnchor = false → ∀ n, r.element.numQubits = some n → n = r.quantumWires.length
  numClbits : r.isAnchor = false → ∀ n, r.element.numClbits = some n → n = r.classicalWires.length
  numParams : ∀ n, r.element.numParams = some n → n = r.params.length

theorem Record.Suits.of_eq {r s : Record} (suits : r.Suits) (element : s.element = r.element)
    (wires : s.wires = r.wires) (numQuantum : s.numQuantum = r.numQuantum)
    (params : s.params.length = r.params.length) : s.Suits where
  numQubits := by
    rw [isAnchor, element, quantumWires, wires, numQuantum]
    exact suits.numQubits
  numClbits := by
    rw [isAnchor, element, classicalWires, wires, numQuantum]
    exact suits.numClbits
  numParams := by
    rw [element, params]
    exact suits.numParams

theorem Record.Suits.params_of_isAnchor {r : Record} (suits : r.Suits)
    (anchor : r.isAnchor = true) : r.params = [] := by
  have none : r.element.numParams = some 0 := by
    rw [isAnchor] at anchor
    cases element : r.element <;> rw [element] at anchor <;> first | rfl | cases anchor
  exact List.eq_nil_of_length_eq_zero (suits.numParams 0 none).symm

namespace Records

variable {rs rs' : Records} {v : VertexId} {r : Record}

/-- All live vertices suit their elements. -/
structure Suited (rs : Records) : Prop where
  suits : ∀ v r, rs.Live v r → r.Suits

theorem Suited.congr (suited : rs.Suited) (same : rs'.bare? = rs.bare?) : rs'.Suited := by
  constructor
  intro v s live
  obtain ⟨r, live', agree⟩ := exists_live_of_bare? same.symm live
  refine (suited.suits v r live').of_eq (Record.element_of_bare agree).symm
    (Record.wires_of_bare agree).symm (Record.numQuantum_of_bare agree).symm ?_
  rw [Record.params, Record.params, Record.operation_of_bare agree]

theorem Suited.push (suited : rs.Suited) (new : r.Suits) : (rs.push r).Suited := by
  constructor
  intro v s live
  rcases Live.of_push live with old | ⟨-, rfl⟩
  · exact suited.suits v s old
  · exact new

theorem Suited.tombstone (suited : rs.Suited) (v : VertexId) : (rs.tombstone v).Suited :=
  ⟨fun u r live => suited.suits u r (live_tombstone.mp live).2⟩

theorem Suited.setParam (suited : rs.Suited) (v : VertexId) (position : Nat) (p : Param) :
    (rs.setParam v position p).Suited := by
  constructor
  intro u s live
  obtain ⟨found, kept⟩ := live
  rw [get?_setParam] at found
  split at found
  · obtain ⟨r, lookup, rfl⟩ := Option.map_eq_some_iff.mp found
    refine (suited.suits u r ⟨lookup, kept⟩).of_eq rfl rfl rfl ?_
    rw [Record.params, Record.params, Operation.params, Operation.params]
    cases r.operation.params? with
    | none => rfl
    | some ps => exact List.length_set
  · exact suited.suits u s ⟨found, kept⟩

end Records

namespace Circuit

variable {c : Circuit} {line : WireId → List VertexId} {op : Operation}
  {qubits clbits : List WireId} {v : VertexId} {r : Record}

/-! ## What edits make -/

theorem Accepts.suits (accepts : c.Accepts op qubits clbits) :
    (Record.unwired op qubits clbits).Suits where
  numQubits _ := by
    have quantum : (Record.unwired op qubits clbits).quantumWires = qubits := by
      simp [Record.quantumWires, Record.unwired]
    rw [quantum]
    exact accepts.numQubits
  numClbits _ := by
    have classical : (Record.unwired op qubits clbits).classicalWires = clbits := by
      simp [Record.classicalWires, Record.unwired]
    rw [classical]
    exact accepts.numClbits
  numParams := accepts.numParams

theorem rewired_spliceAll (v : VertexId) (points : List ((WireId × Port) × Nat)) (c : Circuit) :
    c.Rewired (points.foldl
      (fun c ((wire, successor), i) => c.spliceBefore ⟨v, i⟩ wire successor) c) := by
  induction points generalizing c with
  | nil => exact .refl c
  | cons point points ih => exact (rewired_spliceBefore c _ _ _).trans (ih _)

theorem suits_anchorRecord (c : Circuit) (side : Side) (w : WireId) :
    (c.anchorRecord side w).Suits where
  numQubits operation := by
    rw [Record.isAnchor, element_anchorRecord] at operation
    cases side <;> cases operation
  numClbits operation := by
    rw [Record.isAnchor, element_anchorRecord] at operation
    cases side <;> cases operation
  numParams n takes := by
    rw [element_anchorRecord] at takes
    rw [params_anchorRecord]
    cases side <;> cases takes <;> rfl

/-! ## What changes keep -/

/-- A property of records that outlasts what changes other than compaction do to them. -/
structure Lasting (keeps : Records → Prop) : Prop where
  congr : ∀ {rs rs' : Records}, rs'.bare? = rs.bare? → keeps rs → keeps rs'
  push : ∀ {rs : Records} {r : Record}, r.Suits → r.removed = false → keeps rs → keeps (rs.push r)
  tombstone : ∀ {rs : Records} (v : VertexId), keeps rs → keeps (rs.tombstone v)
  setParam : ∀ {rs : Records} (v : VertexId) (position : Nat) (p : Param), keeps rs →
    keeps (rs.setParam v position p)

section Changes

variable {keeps : Records → Prop} (lasting : Lasting keeps)

include lasting

theorem Lasting.place (accepts : c.Accepts op qubits clbits) (successors : List Port)
    (before : keeps c.records) : keeps (c.place op qubits clbits successors).records := by
  have pushed : keeps (c.pushVertex op qubits clbits).records :=
    lasting.push accepts.suits rfl before
  exact lasting.congr
    (rewired_spliceAll c.records.size _ (c.pushVertex op qubits clbits)).bare pushed

theorem Lasting.excise (block : List VertexId) (passages : List Passage)
    (before : keeps c.records) : keeps (c.excise block passages).records := by
  have retired : ∀ (block : List VertexId) (c : Circuit), keeps c.records →
      keeps (block.foldl retire c).records := by
    intro block
    induction block with
    | nil => exact fun c kept => kept
    | cons v block ih => exact fun c kept => ih _ (lasting.tombstone v kept)
  exact retired block _ (lasting.congr (Records.bare?_linkAll passages c.records).1 before)

/-- New wires come with anchors only. -/
theorem Lasting.openWires (wires : List WireId) (before : keeps c.records) :
    keeps (c.openWires wires).records := by
  refine openWires_keeps (fun c => keeps c.records) (fun c side w kept => ?_)
    (fun c source target w kept => lasting.congr (rewired_connect ..).bare kept) before wires
  rw [(pushEnd_spec c side w).1]
  exact lasting.push (suits_anchorRecord c side w) (removed_anchorRecord c side w) kept

theorem Lasting.foldl_rebind (f : Param → Param) (slots : List (Param × ParamSlot))
    (before : keeps c.records) :
    keeps (slots.foldl (fun c (p, slot) => c.rebind slot p (f p)) c).records := by
  induction slots generalizing c with
  | nil => exact before
  | cons slot slots ih =>
      obtain ⟨p, slot⟩ := slot
      have rebound : keeps (c.rebind slot p (f p)).records :=
        lasting.setParam slot.vertex slot.position (f p) before
      exact ih rebound

theorem Lasting.addOperation (op : Operation) (qubits clbits : List WireId)
    (before : keeps c.records) : keeps ((addOperation op qubits clbits).after c).records := by
  refine (addOperation_yields c op qubits clbits).after (fun c => keeps c.records) before ?_
  rintro _ _ ⟨accepts, rfl⟩
  exact lasting.place accepts _ before

theorem Lasting.append (other : Circuit) (order? : Option (List WireId))
    (before : keeps c.records) : keeps ((append other order?).after c).records := by
  cases valid : c.validateOrder other (order?.getD (c.defaultOrder other)) with
  | error cause =>
      rw [Edit.after, append_refused valid]
      exact before
  | ok _ =>
      rw [Edit.after, append_run valid]
      refine @Edit.keeps_forM _ _ c (fun c => keeps c.records) _ _ ?_ ?_ _ before
      · intro c op kept
        rw [Edit.after_discard]
        exact lasting.addOperation _ _ _ kept
      · exact fun c kept => kept

theorem Lasting.change (laid : c.LaidOut) {change : Change} (other : change ≠ .compact)
    (before : keeps c.records) : keeps (change.after c).records := by
  cases change with
  | addQubit =>
      refine (addQubit_yields c).after (fun c => keeps c.records) before ?_
      rintro _ _ rfl
      have widened : keeps ({ c with numQubits := c.numQubits + 1 } : Circuit).records := before
      exact lasting.openWires [c.numQubits] widened
  | addClbit =>
      have widened : keeps ({ c with numClbits := c.numClbits + 1 } : Circuit).records := before
      exact lasting.openWires [c.numWires] widened
  | addOperation op qubits clbits => exact lasting.addOperation op qubits clbits before
  | insertOperation op points qubits clbits =>
      refine (insertOperation_yields c op points qubits clbits).after (fun c => keeps c.records)
        before ?_
      rintro _ _ ⟨accepts, successors, rfl⟩
      exact lasting.place accepts successors before
  | removeOperation v =>
      refine (laid.removeOperation_yields v).after (fun c => keeps c.records) before ?_
      rintro _ _ ⟨r, -, -, -, rfl⟩
      exact lasting.excise [v] r.passages before
  | removeBlock vs map? =>
      refine (removeBlock_yields c vs map?).after (fun c => keeps c.records) before ?_
      rintro _ _ (rfl | ⟨block, passages, rfl⟩)
      · exact before
      · exact lasting.excise block passages before
  | compact => exact absurd rfl other
  | append circuit order? => exact lasting.append circuit order? before
  | setParam v position p =>
      refine (setParam_yields c v position p).after (fun c => keeps c.records) before ?_
      rintro _ _ rfl
      exact lasting.setParam v position p before
  | bindSymbol name number => exact lasting.foldl_rebind (·.bind name number) _ before
  | setGlobalPhase phase => exact before

end Changes

/-! ## Reachable circuits -/

theorem lasting_suited : Lasting Records.Suited where
  congr same suited := suited.congr same
  push suits _ suited := suited.push suits
  tombstone v suited := suited.tombstone v
  setParam v position p suited := suited.setParam v position p

theorem suited_compacted (suited : c.records.Suited) : c.compacted.records.Suited := by
  constructor
  intro k s live
  obtain ⟨v, r, live', -, rfl⟩ := exists_of_compacted live.1
  exact (suited.suits v r live').of_eq rfl rfl rfl rfl

theorem suited_blank (numQubits numClbits : Nat) (phase : Binary64) :
    (blank numQubits numClbits phase).records.Suited := by
  rw [blank_eq]
  refine lasting_suited.openWires _ ⟨fun v r live => ?_⟩
  simp [Records.Live, Records.get?, Records.empty] at live

theorem Reachable.suited (reachable : c.Reachable) : c.records.Suited := by
  induction reachable with
  | blank numQubits numClbits phase => exact suited_blank numQubits numClbits phase
  | change before change ih =>
      by_cases compacts : change = .compact
      · rw [compacts]
        exact suited_compacted ih
      · exact lasting_suited.change before.laidOut compacts ih

/-- A circuit accepts each of its operations on the wires that it is on. -/
theorem Layout.accepts (layout : c.Layout line) (suited : c.records.Suited)
    (live : c.records.Live v r) (operation : r.isAnchor = false) :
    c.Accepts r.operation r.quantumWires r.classicalWires := by
  have suits := suited.suits v r live
  have wired := layout.wired v r live
  have both : r.quantumWires ++ r.classicalWires = r.wires := List.take_append_drop ..
  refine ⟨operation, ?_, suits.numQubits operation, suits.numClbits operation, suits.numParams, ?_,
    wired.quantum, wired.classical⟩
  · rw [both]
    exact wired.nonempty
  · rw [both]
    exact wired.nodup

end Circuit

end CircuitDag
