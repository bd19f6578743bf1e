import CircuitDag.Proofs.Circuit.Threading

/-!
# Adding wires

New wires get their inputs, then their outputs, and then the two anchors of each wire are joined. A
blank circuit and a circuit with one more wire both arise in this way.
-/

set_option autoImplicit false

namespace CircuitDag.Circuit

variable {c c' : Circuit} {line : WireId → List VertexId} {side : Side} {u v : VertexId}
  {w : WireId} {r : Record} {k : Nat}

def anchorRecord (c : Circuit) (side : Side) (w : WireId) : Record :=
  if c.isQuantum w then Record.unwired { element := endElement side } [w] []
  else Record.unwired { element := endElement side } [] [w]

def pushEnd (c : Circuit) : Side → WireId → Circuit
  | .incoming => c.pushInput
  | .outgoing => c.pushOutput

def openWires (c : Circuit) (wires : List WireId) : Circuit :=
  wires.foldl connectAnchors
    (wires.foldl (pushEnd · .outgoing) (wires.foldl (pushEnd · .incoming) c))

theorem blank_eq (numQubits numClbits : Nat) (phase : Binary64) :
    blank numQubits numClbits phase =
      openWires { numQubits, numClbits, globalPhase := phase }
        (List.range (numQubits + numClbits)) := rfl

theorem wires_anchorRecord (c : Circuit) (side : Side) (w : WireId) :
    (c.anchorRecord side w).wires = [w] := by
  unfold anchorRecord
  split <;> rfl

theorem element_anchorRecord (c : Circuit) (side : Side) (w : WireId) :
    (c.anchorRecord side w).element = endElement side := by
  unfold anchorRecord
  split <;> rfl

theorem removed_anchorRecord (c : Circuit) (side : Side) (w : WireId) :
    (c.anchorRecord side w).removed = false := by
  unfold anchorRecord
  split <;> rfl

theorem params_anchorRecord (c : Circuit) (side : Side) (w : WireId) :
    (c.anchorRecord side w).params = [] := by
  unfold anchorRecord
  split <;> rfl

theorem port?_anchorRecord (c : Circuit) (side other : Side) (w : WireId) (i : Nat) :
    (c.anchorRecord side w).port? other i = none := by
  unfold anchorRecord
  cases other <;> split <;> rcases i with _ | i <;> rfl

theorem wired_anchorRecord (bound : w < c.numWires) (side : Side) :
    c.Wired (c.anchorRecord side w) where
  nonempty := by simp [wires_anchorRecord]
  nodup := by simp [wires_anchorRecord]
  placed i x position := by
    rw [wires_anchorRecord] at position
    obtain ⟨rfl, rfl⟩ : i = 0 ∧ x = w := by
      rcases i with _ | i
      · simpa [eq_comm] using position
      · simp at position
    refine ⟨bound, ?_⟩
    by_cases quantum : x < c.numQubits <;>
      simp [anchorRecord, isQuantum, quantum, Record.unwired]

theorem pushEnd_spec (c : Circuit) (side : Side) (w : WireId) :
    (c.pushEnd side w).records = c.records.push (c.anchorRecord side w) ∧
      (c.pushEnd side w).graph = c.graph.addVertex ∧
      (c.pushEnd side w).anchors side = (c.anchors side).push c.records.size ∧
      (∀ other, other ≠ side → (c.pushEnd side w).anchors other = c.anchors other) ∧
      (c.pushEnd side w).numQubits = c.numQubits ∧ (c.pushEnd side w).numClbits = c.numClbits ∧
      (c.pushEnd side w).params = c.params ∧ (c.pushEnd side w).numRemoved = c.numRemoved := by
  cases side <;> cases quantum : c.isQuantum w <;>
    simp [pushEnd, pushInput, pushOutput, pushAnchor, quantum, anchorRecord, endElement, anchors,
      pushVertex] <;> rintro (_ | _) <;> simp

/-- What new anchors and their connections keep is kept when wires are added. -/
theorem openWires_keeps (keeps : Circuit → Prop)
    (ends : ∀ c side w, keeps c → keeps (c.pushEnd side w))
    (joins : ∀ c source target w, keeps c → keeps (c.connect source target w))
    (before : keeps c) (wires : List WireId) : keeps (c.openWires wires) := by
  have ended : ∀ (side : Side) (wires : List WireId) (c : Circuit), keeps c →
      keeps (wires.foldl (pushEnd · side) c) := by
    intro side wires
    induction wires with
    | nil => exact fun c kept => kept
    | cons w wires ih => exact fun c kept => ih _ (ends c side w kept)
  have joined : ∀ (wires : List WireId) (c : Circuit), keeps c →
      keeps (wires.foldl connectAnchors c) := by
    intro wires
    induction wires with
    | nil => exact fun c kept => kept
    | cons w wires ih =>
        intro c kept
        refine ih _ ?_
        unfold connectAnchors
        split
        · exact joins _ _ _ _ kept
        · exact kept
  exact joined wires _ (ended .outgoing wires _ (ended .incoming wires c before))

theorem anchorRecord_congr (same : c'.numQubits = c.numQubits) :
    c'.anchorRecord = c.anchorRecord := by
  funext side w
  have quantum : c'.isQuantum w = c.isQuantum w := by rw [isQuantum, same, isQuantum]
  rw [anchorRecord, quantum, anchorRecord]

theorem Threaded.pushEnd (threaded : c.Threaded line) (side : Side) (w : WireId) :
    (c.pushEnd side w).Threaded line := by
  obtain ⟨records, graph, -⟩ := pushEnd_spec c side w
  constructor
  · rw [records]
    refine threaded.shaped.push ?_
    unfold anchorRecord
    split <;> exact Record.length_ports_unwired _ _ _
  · rw [records]
    exact fun w => (threaded.strung w).push _
  · rw [graph]
    exact ⟨threaded.traced.nodup, threaded.traced.mem_iff⟩
  · rw [graph]
    exact threaded.slotted.addVertex
  · rw [graph, records, Records.size_push, ← threaded.numVertices]
    rfl

theorem Tallied.pushEnd (tallied : c.Tallied) (side : Side) (w : WireId) :
    (c.pushEnd side w).Tallied := by
  obtain ⟨records, -, -, -, -, -, params, numRemoved⟩ := pushEnd_spec c side w
  have removed := removed_anchorRecord c side w
  constructor
  · rw [params]
    exact tallied.coherent
  · rw [params, records]
    have pushed := tallied.indexed.push tallied.coherent removed
    rwa [params_anchorRecord] at pushed
  · rw [numRemoved, records, Records.numTombstones_push removed]
    exact tallied.numRemoved

/-- A circuit `c'` is a circuit `c` with anchors on one side of the wires from `start` on. -/
structure Ended (c c' : Circuit) (side : Side) (start count : Nat) : Prop where
  old : ∀ v r, c.records.Live v r → c'.records.Live v r
  cases : ∀ v r, c'.records.get? v = some r → c.records.get? v = some r ∨
    ∃ w, start ≤ w ∧ w < start + count ∧ (c'.anchors side)[w]? = some v ∧ r = c.anchorRecord side w
  new : ∀ w, start ≤ w → w < start + count → ∃ v, (c'.anchors side)[w]? = some v ∧
    c.records.size ≤ v ∧ c'.records.Live v (c.anchorRecord side w)
  kept : ∀ w, w < start → (c'.anchors side)[w]? = (c.anchors side)[w]?
  size : (c'.anchors side).size = start + count
  others : ∀ other, other ≠ side → c'.anchors other = c.anchors other
  grown : c.records.size ≤ c'.records.size
  numQubits : c'.numQubits = c.numQubits
  numClbits : c'.numClbits = c.numClbits
  tallied : c.Tallied → c'.Tallied
  threaded : ∀ line, c.Threaded line → c'.Threaded line

theorem ended_foldl (side : Side) {start : Nat} (size : (c.anchors side).size = start)
    (count : Nat) :
    Ended c ((List.range' start count).foldl (pushEnd · side) c) side start count := by
  induction count with
  | zero =>
      exact ⟨fun _ _ live => live, fun _ _ found => .inl found, fun w above below => by omega,
        fun _ _ => rfl, size, fun _ _ => rfl, Nat.le_refl _, rfl, rfl, id, fun _ => id⟩
  | succ count ih =>
      rw [List.range'_1_concat, List.foldl_append, List.foldl_cons, List.foldl_nil]
      generalize (List.range' start count).foldl (pushEnd · side) c = c' at ih
      obtain ⟨records, -, own, others, numQubits, numClbits, -⟩ :=
        pushEnd_spec c' side (start + count)
      have removed := removed_anchorRecord c' side (start + count)
      have record := congrFun₂ (anchorRecord_congr ih.numQubits) side (start + count)
      have last : ((c'.pushEnd side (start + count)).anchors side)[start + count]? =
          some c'.records.size := by
        rw [own, ← ih.size, Array.getElem?_push_size]
      have before : ∀ w, w < start + count →
          ((c'.pushEnd side (start + count)).anchors side)[w]? = (c'.anchors side)[w]? := by
        intro w below
        rw [← ih.size] at below
        rw [own, Array.getElem?_push, if_neg (Nat.ne_of_lt below)]
      constructor
      · intro v r live
        rw [records]
        exact (ih.old v r live).push _
      · intro v r found
        rw [records] at found
        rcases Records.get?_of_push found with found | ⟨rfl, rfl⟩
        · rcases ih.cases v r found with found | ⟨w, above, below, anchor, same⟩
          · exact .inl found
          · exact .inr ⟨w, above, by omega, (before w below).trans anchor, same⟩
        · exact .inr ⟨start + count, Nat.le_add_right .., by omega, last, record⟩
      · intro w above below
        by_cases new : w = start + count
        · subst new
          refine ⟨c'.records.size, last, ih.grown, ?_⟩
          rw [records, ← record]
          exact Records.live_push_size _ removed
        · obtain ⟨v, anchor, beyond, live⟩ := ih.new w above (by omega)
          refine ⟨v, (before w (by omega)).trans anchor, beyond, ?_⟩
          rw [records]
          exact live.push _
      · intro w below
        exact (before w (by omega)).trans (ih.kept w below)
      · rw [own, Array.size_push, ih.size]
        rfl
      · intro other different
        rw [others other different, ih.others other different]
      · rw [records, Records.size_push]
        exact Nat.le_succ_of_le ih.grown
      · exact numQubits.trans ih.numQubits
      · exact numClbits.trans ih.numClbits
      · exact fun tallied => (ih.tallied tallied).pushEnd side _
      · intro line threaded
        exact (ih.threaded line threaded).pushEnd side _

/-! ## Joining anchors -/

/-- The two anchors of a wire, not joined yet. -/
structure Unjoined (c : Circuit) (w : WireId) (a b : VertexId) : Prop where
  input : c.input? w = some a
  output : c.output? w = some b
  different : a ≠ b
  source : c.records.Carries a w
  target : c.records.Carries b w
  sourcePort : c.records.portOn w a = ⟨a, 0⟩
  targetPort : c.records.portOn w b = ⟨b, 0⟩
  first : c.records.facing .incoming (c.records.portOn w a) = none
  last : c.records.facing .outgoing (c.records.portOn w b) = none

theorem Unjoined.connectAnchors_eq {a b : VertexId} (unjoined : c.Unjoined w a b) :
    c.connectAnchors w = c.connect (c.records.portOn w a) (c.records.portOn w b) w := by
  simp only [connectAnchors, unjoined.input, unjoined.output, unjoined.sourcePort,
    unjoined.targetPort]

theorem Unjoined.connect {a b a' b' : VertexId} {w' : WireId} (shaped : c.records.Shaped)
    (unjoined : c.Unjoined w a b) (other : c.Unjoined w' a' b') (different : w' ≠ w) :
    (c.connect (c.records.portOn w a) (c.records.portOn w b) w).Unjoined w' a' b' := by
  have bare := Records.bare?_link c.records (c.records.portOn w a) (c.records.portOn w b)
  have portSame := Records.portOn_congr bare
  constructor
  · exact other.input
  · exact other.output
  · exact other.different
  · exact other.source.of_bare? bare
  · exact other.target.of_bare? bare
  · exact (congrFun₂ portSame w' a').trans other.sourcePort
  · exact (congrFun₂ portSame w' b').trans other.targetPort
  · have apart : c.records.portOn w' a' ≠ c.records.portOn w b := fun same =>
      different (Records.portOn_injective other.source unjoined.target same).2
    change (c.records.link _ _).facing _ ((c.records.link _ _).portOn w' a') = none
    rw [portSame, Records.facing_link_incoming shaped (Records.hasSlot_portOn unjoined.source)
      (Records.hasSlot_portOn unjoined.target), if_neg apart]
    exact other.first
  · have apart : c.records.portOn w' b' ≠ c.records.portOn w a := fun same =>
      different (Records.portOn_injective other.target unjoined.source same).2
    change (c.records.link _ _).facing _ ((c.records.link _ _).portOn w' b') = none
    rw [portSame, Records.facing_link_outgoing shaped (Records.hasSlot_portOn unjoined.source)
      (Records.hasSlot_portOn unjoined.target), if_neg apart]
    exact other.last

/-- Joining the anchors of several wires makes a line of two vertices for each of them. -/
theorem Threaded.connectAll (threaded : c.Threaded line) (wires : List WireId)
    (unique : wires.Nodup) (empty : ∀ w ∈ wires, line w = [])
    (ends : ∀ w ∈ wires, ∃ a b, c.Unjoined w a b) :
    c.Rewired (wires.foldl connectAnchors c) ∧ ∃ line',
      (wires.foldl connectAnchors c).Threaded line' ∧ (∀ w, w ∉ wires → line' w = line w) ∧
      ∀ w ∈ wires, ∃ a b, c.Unjoined w a b ∧ line' w = [a, b] := by
  induction wires generalizing c line with
  | nil => exact ⟨.refl c, line, threaded, fun _ _ => rfl, by simp⟩
  | cons w wires ih =>
      obtain ⟨absent, rest⟩ := List.nodup_cons.mp unique
      obtain ⟨a, b, unjoined⟩ := ends w List.mem_cons_self
      have joined := threaded.connect (empty w List.mem_cons_self) unjoined.source unjoined.target
        unjoined.different unjoined.first unjoined.last
      have different : ∀ x ∈ wires, x ≠ w := by
        intro x member same
        obtain rfl := same
        exact absent member
      rw [List.foldl_cons, unjoined.connectAnchors_eq]
      obtain ⟨rewired, line', threaded', others, lines⟩ := ih joined rest
        (fun x member => by
          rw [Function.update_of_ne (different x member)]
          exact empty x (List.mem_cons_of_mem w member))
        (fun x member => by
          obtain ⟨a', b', other⟩ := ends x (List.mem_cons_of_mem w member)
          exact ⟨a', b', unjoined.connect threaded.shaped other (different x member)⟩)
      refine ⟨(rewired_connect ..).trans rewired, line', threaded', ?_, ?_⟩
      · intro x outside
        rw [List.mem_cons, not_or] at outside
        rw [others x outside.2, Function.update_of_ne outside.1]
      · intro x member
        rcases List.mem_cons.mp member with rfl | member
        · refine ⟨a, b, unjoined, ?_⟩
          rw [others x absent, Function.update_self]
        · obtain ⟨a', b', joinedLater, shape⟩ := lines x member
          obtain ⟨a'', b'', earlier⟩ := ends x (List.mem_cons_of_mem w member)
          have sameInput : some a'' = some a' := earlier.input.symm.trans joinedLater.input
          have sameOutput : some b'' = some b' := earlier.output.symm.trans joinedLater.output
          cases sameInput
          cases sameOutput
          exact ⟨a', b', earlier, shape⟩

/-! ## New wires -/

/-- A circuit `c'` is a circuit `c` with both anchors of the wires from `start` on. -/
structure Opened (c c' : Circuit) (start count : Nat) : Prop where
  old : ∀ v r, c.records.Live v r → c'.records.Live v r
  cases : ∀ v r, c'.records.get? v = some r → c.records.get? v = some r ∨
    ∃ side w, start ≤ w ∧ w < start + count ∧ (c'.anchors side)[w]? = some v ∧
      r = c.anchorRecord side w
  new : ∀ side w, start ≤ w → w < start + count → ∃ v, (c'.anchors side)[w]? = some v ∧
    c'.records.Live v (c.anchorRecord side w)
  kept : ∀ side w, w < start → (c'.anchors side)[w]? = (c.anchors side)[w]?
  size : ∀ side, (c'.anchors side).size = start + count
  numQubits : c'.numQubits = c.numQubits
  numClbits : c'.numClbits = c.numClbits

theorem Ended.opened {c'' : Circuit} {start count : Nat}
    (first : Ended c c' .incoming start count) (second : Ended c' c'' .outgoing start count) :
    Opened c c'' start count := by
  have record := anchorRecord_congr first.numQubits
  have inputs : c''.anchors .incoming = c'.anchors .incoming := second.others _ nofun
  have outputs : c'.anchors .outgoing = c.anchors .outgoing := first.others _ nofun
  constructor
  · exact fun v r live => second.old v r (first.old v r live)
  · intro v r found
    rcases second.cases v r found with found | ⟨w, above, below, anchor, same⟩
    · rcases first.cases v r found with found | ⟨w, above, below, anchor, same⟩
      · exact .inl found
      · exact .inr ⟨.incoming, w, above, below, by rw [inputs, anchor], same⟩
    · exact .inr ⟨.outgoing, w, above, below, anchor, by rw [same, record]⟩
  · intro side w above below
    cases side with
    | incoming =>
        obtain ⟨v, anchor, -, live⟩ := first.new w above below
        exact ⟨v, by rw [inputs, anchor], second.old v _ live⟩
    | outgoing =>
        obtain ⟨v, anchor, -, live⟩ := second.new w above below
        exact ⟨v, anchor, record ▸ live⟩
  · intro side w below
    cases side with
    | incoming => rw [inputs, first.kept w below]
    | outgoing => rw [second.kept w below, outputs]
  · intro side
    cases side with
    | incoming => rw [inputs, first.size]
    | outgoing => exact second.size
  · exact second.numQubits.trans first.numQubits
  · exact second.numClbits.trans first.numClbits

theorem Opened.unjoined {start count : Nat} (opened : Opened c c' start count)
    (above : start ≤ w) (below : w < start + count) : ∃ a b, c'.Unjoined w a b := by
  obtain ⟨a, input, source⟩ := opened.new .incoming w above below
  obtain ⟨b, output, target⟩ := opened.new .outgoing w above below
  have port : ∀ {v side}, c'.records.Live v (c.anchorRecord side w) →
      c'.records.portOn w v = ⟨v, 0⟩ := by
    intro v side live
    rw [Records.portOn_eq live.1, wires_anchorRecord, List.idxOf_cons_self]
  have free : ∀ {v side other}, c'.records.Live v (c.anchorRecord side w) →
      c'.records.facing other (c'.records.portOn w v) = none := by
    intro v side other live
    simp only [Records.facing, port live, Records.port?, live.1, Option.bind_some,
      port?_anchorRecord]
  refine ⟨a, b, input, output, ?_, ⟨_, source, by simp [wires_anchorRecord]⟩,
    ⟨_, target, by simp [wires_anchorRecord]⟩, port source, port target, free source, free target⟩
  intro same
  obtain rfl := same
  have same := congrArg Record.element (source.unique target)
  rw [element_anchorRecord, element_anchorRecord] at same
  cases same

theorem Opened.live {start count : Nat} (opened : Opened c c' start count) (above : start ≤ w)
    (anchor : (c'.anchors side)[w]? = some v) : c'.records.Live v (c.anchorRecord side w) := by
  have below : w < start + count := by
    rw [← opened.size side]
    exact (Array.getElem?_eq_some_iff.mp anchor).1
  obtain ⟨u, anchor', live⟩ := opened.new side w above below
  exact Option.some.inj (anchor'.symm.trans anchor) ▸ live

theorem Unjoined.tip?_eq {a b : VertexId} (unjoined : c.Unjoined w a b) (side : Side) :
    tip? [a, b] side = (c.anchors side)[w]? := by
  cases side with
  | incoming => exact unjoined.input.symm
  | outgoing => exact unjoined.output.symm

/-- A circuit `c₁` is a circuit `c` that is about to get `count` wires from `start` on. -/
structure Widened (c c₁ : Circuit) (start count : Nat) : Prop where
  records : c₁.records = c.records
  anchors : c₁.anchors = c.anchors
  before : c.numWires = start
  total : c₁.numWires = start + count
  kinds : ∀ w, w < start → (w < c₁.numQubits ↔ w < c.numQubits)

theorem Widened.wired {c₁ : Circuit} {start count : Nat} (widened : Widened c c₁ start count)
    (wired : c.Wired r) : c₁.Wired r where
  nonempty := wired.nonempty
  nodup := wired.nodup
  placed i w position := by
    obtain ⟨bound, kind⟩ := wired.placed i w position
    rw [widened.before] at bound
    rw [widened.total]
    exact ⟨Nat.lt_of_lt_of_le bound (Nat.le_add_right ..), kind.trans (widened.kinds w bound).symm⟩

section Opening

variable {c₁ : Circuit} {start count : Nat} {line' : WireId → List VertexId}

theorem Opened.live_cases (opened : Opened c₁ c' start count)
    (widened : Widened c c₁ start count) (live : c'.records.Live v r) :
    c.records.Live v r ∨ ∃ side w, start ≤ w ∧ w < start + count ∧
      (c'.anchors side)[w]? = some v ∧ r = c₁.anchorRecord side w := by
  refine (opened.cases v r live.1).imp (fun found => ?_) id
  exact ⟨widened.records ▸ found, live.2⟩

theorem Opened.tip?_eq (opened : Opened c₁ c' start count) (widened : Widened c c₁ start count)
    (seated : c.Seated line) (kept : ∀ w, w ∉ List.range' start count → line' w = line w)
    (lines : ∀ w ∈ List.range' start count, ∃ a b, c'.Unjoined w a b ∧ line' w = [a, b])
    (side : Side) (w : WireId) : tip? (line' w) side = (c'.anchors side)[w]? := by
  by_cases new : w ∈ List.range' start count
  · obtain ⟨a, b, unjoined, shape⟩ := lines w new
    rw [shape, unjoined.tip?_eq side]
  · rw [kept w new]
    rw [List.mem_range'_1] at new
    rcases Nat.lt_or_ge w start with old | above
    · rw [opened.kept side w old, widened.anchors]
      exact seated.tips side w
    · have beyond : start + count ≤ w := Nat.le_of_not_lt fun below => new ⟨above, below⟩
      have outside : c.numWires ≤ w :=
        widened.before ▸ (Nat.le_add_right ..).trans beyond
      rw [seated.line_eq_nil outside, Array.getElem?_eq_none (by rwa [opened.size])]
      cases side <;> rfl

theorem Seated.opened (seated : c.Seated line) (widened : Widened c c₁ start count)
    (opened : Opened c₁ c' start count)
    (kept : ∀ w, w ∉ List.range' start count → line' w = line w)
    (lines : ∀ w ∈ List.range' start count, ∃ a b, c'.Unjoined w a b ∧ line' w = [a, b]) :
    c'.Seated line' := by
  have total : c'.numWires = start + count := by
    rw [numWires, opened.numQubits, opened.numClbits]
    exact widened.total
  have oldWire : ∀ v r w, c.records.Live v r → w ∈ r.wires → w < start := by
    intro v r w live member
    obtain ⟨i, position⟩ := List.getElem?_of_mem member
    exact widened.before ▸ ((seated.wired v r live).placed i w position).1
  have tips := opened.tip?_eq widened seated kept lines
  constructor
  · intro v r live
    have wired : c₁.Wired r := by
      rcases opened.live_cases widened live with old | ⟨side, w, above, below, -, rfl⟩
      · exact widened.wired (seated.wired v r old)
      · exact wired_anchorRecord (widened.total ▸ below) side
    refine ⟨wired.nonempty, wired.nodup, ?_⟩
    rw [total, opened.numQubits, ← widened.total]
    exact wired.placed
  · intro v r found removed
    rcases opened.cases v r found with old | ⟨side, w, -, -, -, rfl⟩
    · exact seated.retired v r (widened.records ▸ old) removed
    · simp [removed_anchorRecord] at removed
  · intro v w given
    obtain ⟨r, live, member⟩ := given
    rcases opened.live_cases widened live with old | ⟨side, x, above, below, anchor, rfl⟩
    · have outside : w ∉ List.range' start count := by
        rw [List.mem_range'_1]
        exact fun inside => Nat.not_lt_of_ge inside.1 (oldWire v r w old member)
      rw [kept w outside]
      exact seated.covered v w ⟨r, old, member⟩
    · rw [wires_anchorRecord, List.mem_singleton] at member
      subst member
      exact mem_of_tip? ((tips side w).trans anchor)
  · intro side
    rw [opened.size, total]
  · exact tips
  · intro side w v anchor
    rcases Nat.lt_or_ge w start with old | above
    · rw [opened.kept side w old, widened.anchors] at anchor
      obtain ⟨r, live, rest⟩ := seated.anchored side w v anchor
      refine ⟨r, opened.old v r ?_, rest⟩
      rw [widened.records]
      exact live
    · exact ⟨_, opened.live above anchor, element_anchorRecord .., wires_anchorRecord ..⟩
  · intro side v r live element
    rcases opened.live_cases widened live with old | ⟨side', w, above, below, anchor, rfl⟩
    · obtain ⟨w, member, anchor⟩ := seated.terminal side v r old element
      refine ⟨w, member, ?_⟩
      rw [opened.kept side w (oldWire v r w old member), widened.anchors]
      exact anchor
    · have same : side' = side := by
        rw [element_anchorRecord] at element
        cases side' <;> cases side <;> first | rfl | cases element
      subst same
      exact ⟨w, by simp [wires_anchorRecord], anchor⟩

end Opening

theorem orderly_opened {line' : WireId → List VertexId} (orderly : Orderly line) {m n : Nat}
    (bounded : ∀ w, ∀ v ∈ line w, v < c.records.size)
    (lines : ∀ w, line' w = line w ∨ ∃ a b : Nat, line' w = [a, b] ∧ c.records.size ≤ a ∧
      a < c.records.size + m ∧ c.records.size + m ≤ b ∧ b < c.records.size + m + n) :
    Orderly line' := by
  obtain ⟨order, unique, sublist⟩ := orderly
  refine ⟨order.filter (· < c.records.size) ++ (List.range' c.records.size m ++
    List.range' (c.records.size + m) n), ?_, ?_⟩
  · refine List.nodup_append.mpr ⟨unique.filter _, ?_, ?_⟩
    · refine List.nodup_append.mpr ⟨List.nodup_range', List.nodup_range', ?_⟩
      intro x left y right
      rw [List.mem_range'_1] at left right
      exact Nat.ne_of_lt (by omega)
    · intro x left y right
      have left := (List.mem_filter.mp left).2
      rw [List.mem_append, List.mem_range'_1, List.mem_range'_1] at right
      simp only [decide_eq_true_eq] at left
      exact Nat.ne_of_lt (by omega)
  · intro w
    rcases lines w with same | ⟨a, b, shape, aboveA, belowA, aboveB, belowB⟩
    · rw [same]
      have old : (line w).filter (· < c.records.size) = line w :=
        List.filter_eq_self.mpr fun v member => by simpa using bounded w v member
      exact (old ▸ (sublist w).filter _).trans (List.sublist_append_left ..)
    · rw [shape]
      have first : [a].Sublist (List.range' c.records.size m) :=
        List.singleton_sublist.mpr (List.mem_range'_1.mpr ⟨aboveA, belowA⟩)
      have second : [b].Sublist (List.range' (c.records.size + m) n) :=
        List.singleton_sublist.mpr (List.mem_range'_1.mpr ⟨aboveB, belowB⟩)
      exact (first.append second).trans (List.sublist_append_right ..)

/-- Opening wires behind the existing ones keeps the layout, if the kinds of the existing wires stay
the same. -/
theorem Layout.openWires (layout : c.Layout line) (numQubits numClbits count : Nat)
    (phase : Binary64) (total : numQubits + numClbits = c.numWires + count)
    (kinds : ∀ w, w < c.numWires → (w < numQubits ↔ w < c.numQubits)) :
    (({ c with numQubits, numClbits, globalPhase := phase } : Circuit).openWires
      (List.range' c.numWires count)).LaidOut := by
  let c₁ : Circuit := { c with numQubits, numClbits, globalPhase := phase }
  have anchors : c₁.anchors = c.anchors := by
    funext side
    cases side <;> rfl
  have first : Ended c₁ _ .incoming c.numWires count :=
    ended_foldl .incoming (by rw [anchors, layout.sizes]) count
  unfold Circuit.openWires
  change LaidOut (List.foldl connectAnchors (List.foldl _ (List.foldl _ c₁ _) _) _)
  generalize (List.range' c.numWires count).foldl (pushEnd · .incoming) c₁ = c₂ at first ⊢
  have second : Ended c₂ _ .outgoing c.numWires count :=
    ended_foldl .outgoing (by rw [first.others .outgoing nofun, anchors, layout.sizes]) count
  generalize (List.range' c.numWires count).foldl (pushEnd · .outgoing) c₂ = c₃ at second ⊢
  have opened := first.opened second
  have threaded : c₃.Threaded line := second.threaded line
    (first.threaded line (layout.of_eq rfl rfl))
  have inRange : ∀ {w}, w ∈ List.range' c.numWires count ↔
      c.numWires ≤ w ∧ w < c.numWires + count := List.mem_range'_1
  obtain ⟨rewired, line', threaded', kept, lines⟩ := threaded.connectAll
    (List.range' c.numWires count) List.nodup_range'
    (fun w member => layout.line_eq_nil (inRange.mp member).1)
    (fun w member => opened.unjoined (inRange.mp member).1 (inRange.mp member).2)
  have widened : Widened c c₁ c.numWires count := ⟨rfl, anchors, rfl, total, kinds⟩
  have seated : c₃.Seated line' := layout.toSeated.opened widened opened kept lines
  have tallied : c₃.Tallied := second.tallied (first.tallied
    ⟨layout.coherent, layout.indexed, layout.numRemoved⟩)
  refine ⟨line', threaded', seated.of_sameSeats rewired.sameSeats, tallied.of_rewired rewired, ?_⟩
  · refine orderly_opened (c := c) (m := c₂.records.size - c.records.size)
      (n := c₃.records.size - c₂.records.size) layout.orderly
      (fun w v member => layout.lt_size member) ?_
    intro w
    by_cases member : w ∈ List.range' c.numWires count
    · obtain ⟨a, b, unjoined, shape⟩ := lines w member
      obtain ⟨above, below⟩ := inRange.mp member
      obtain ⟨a', input, beyondA, liveA⟩ := first.new w above below
      obtain ⟨b', output, beyondB, liveB⟩ := second.new w above below
      have sameA : some a = some a' := by
        rw [← unjoined.input, ← input, ← second.others .incoming nofun]
        rfl
      have sameB : some b = some b' := unjoined.output.symm.trans output
      cases sameA
      cases sameB
      have boundA := Nat.succ_le_of_lt liveA.lt_size
      have boundB := Nat.succ_le_of_lt liveB.lt_size
      have size : c.records.size ≤ c₂.records.size := first.grown
      have beyondA : c.records.size ≤ a := beyondA
      refine .inr ⟨a, b, shape, beyondA, ?_, ?_, ?_⟩ <;> omega
    · exact .inl (kept w member)
theorem layout_empty : ({} : Circuit).Layout fun _ => [] where
  shaped := ⟨fun v r found => by simp [Records.get?, Records.empty] at found⟩
  strung w := Records.strung_nil _ w
  traced := ⟨List.nodup_nil, by simp [Graph.segments, Graph.empty]⟩
  slotted := Graph.slotted_empty 0
  numVertices := rfl
  wired v r live := by simp [Records.Live, Records.get?, Records.empty] at live
  retired v r found := by simp [Records.get?, Records.empty] at found
  covered v w carries := by
    obtain ⟨r, live, -⟩ := carries
    simp [Records.Live, Records.get?, Records.empty] at live
  sizes side := by cases side <;> rfl
  tips side w := by cases side <;> simp [tip?, anchors]
  anchored side w v anchor := by cases side <;> simp [anchors] at anchor
  terminal side v r live := by simp [Records.Live, Records.get?, Records.empty] at live
  orderly := ⟨[], List.nodup_nil, fun _ => List.Sublist.refl _⟩
  coherent := ParamTable.coherent_empty
  indexed slot p := by
    simp [ParamTable.holds, ParamTable.slots?, ParamTable.empty, Records.isLive, Records.get?,
      Records.empty]
  numRemoved := rfl

theorem laidOut_blank (numQubits numClbits : Nat) (phase : Binary64) :
    (blank numQubits numClbits phase).LaidOut := by
  rw [blank_eq, List.range_eq_range']
  exact layout_empty.openWires numQubits numClbits (numQubits + numClbits) phase
    (Nat.zero_add _).symm (fun w below => absurd below (Nat.not_lt_zero w))

theorem LaidOut.addQubit (laid : c.LaidOut) : (addQubit.after c).LaidOut := by
  obtain ⟨line, layout⟩ := id laid
  by_cases classical : 0 < c.numClbits
  · have run : Circuit.addQubit.after c = c := by
      simp [Edit.after, Circuit.addQubit, classical, EStateM.run_bind, run_throw]
    rw [run]
    exact laid
  · have none : c.numClbits = 0 := Nat.eq_zero_of_not_pos classical
    have wires : c.numWires = c.numQubits := by rw [numWires, none, Nat.add_zero]
    have run : Circuit.addQubit.after c =
        ({ c with numQubits := c.numQubits + 1 } : Circuit).openWires
          (List.range' c.numWires 1) := by
      simp only [Edit.after, Circuit.addQubit, EStateM.run_bind, EStateM.run_get, classical,
        ↓reduceIte, EStateM.run_set, wires]
      rfl
    rw [run]
    refine layout.openWires (c.numQubits + 1) c.numClbits 1 c.globalPhase ?_ ?_
    · rw [wires]
      omega
    · intro w below
      rw [wires] at below
      exact ⟨fun _ => below, fun _ => Nat.lt_succ_of_lt below⟩

theorem LaidOut.addClbit (laid : c.LaidOut) : (addClbit.after c).LaidOut := by
  obtain ⟨line, layout⟩ := laid
  exact layout.openWires c.numQubits (c.numClbits + 1) 1 c.globalPhase (Nat.add_assoc ..).symm
    (fun _ _ => Iff.rfl)

end CircuitDag.Circuit
