import CircuitDag.Proofs.Circuit.Removal

/-!
# Removing blocks

The boundary of a block is found port by port. When no wire enters or leaves the block twice, the
block is on every wire a part without gaps, and it is cut out as a whole.
-/

set_option autoImplicit false

namespace CircuitDag.Circuit

variable {c : Circuit} {line : WireId → List VertexId} {block : List VertexId} {v : VertexId}
  {r : Record} {w : WireId} {side : Side}

/-- The port at a position if it leads out of a block. -/
def outside? (block : List VertexId) (port? : Option Port) : Option Port := do
  let port ← port?
  if port.vertex ∈ block then none else some port

theorem outside?_eq_some_iff {port? : Option Port} {port : Port} :
    outside? block port? = some port ↔ port? = some port ∧ port.vertex ∉ block := by
  cases port? with
  | none => simp [outside?]
  | some p =>
      by_cases inside : p.vertex ∈ block
      · simp only [outside?, Option.bind_eq_bind, Option.bind_some, inside, ↓reduceIte,
          reduceCtorEq, Option.some.injEq, false_iff, not_and, not_not]
        intro same
        obtain rfl := same
        exact inside
      · simp only [outside?, Option.bind_eq_bind, Option.bind_some, inside, ↓reduceIte,
          Option.some.injEq, iff_self_and]
        intro same
        obtain rfl := same
        exact inside

/-- A wire position of a record, with its wire. -/
abbrev WirePosition := WireId × Record × Nat

def outsidePorts (block : List VertexId) (side : Side) (positions : List WirePosition) :
    List (WireId × Port) :=
  positions.filterMap fun (w, r, i) =>
    (outside? block (r.port? side i)).map fun port => (w, port)

def blockPositions (c : Circuit) (block : List VertexId) : List WirePosition :=
  (c.records.select block).flatMap fun (_, r) => r.wires.zipIdx.map fun (w, i) => (w, r, i)

theorem mem_outsidePorts {port : Port} :
    (w, port) ∈ outsidePorts block side (c.blockPositions block) ↔
      ∃ v ∈ block, ∃ r i, c.records.get? v = some r ∧ r.wires[i]? = some w ∧
        r.port? side i = some port ∧ port.vertex ∉ block := by
  simp only [outsidePorts, blockPositions, Records.select, List.mem_flatMap, List.mem_filterMap,
    List.mem_map, Prod.exists, Option.map_eq_some_iff, Prod.mk.injEq,
    List.mk_mem_zipIdx_iff_getElem?, outside?_eq_some_iff]
  constructor
  · rintro ⟨x, s, i, ⟨v, r, ⟨u, member, t, found, rfl, rfl⟩, y, j, position, rfl, rfl, rfl⟩, p,
      ⟨before, outside⟩, rfl, rfl⟩
    exact ⟨u, member, t, j, found, position, before, outside⟩
  · intro given
    obtain ⟨v, member, r, i, found, position, before, outside⟩ := given
    exact ⟨w, r, i, ⟨v, r, ⟨v, member, r, found, rfl, rfl⟩, w, i, position, rfl, rfl, rfl⟩, port,
      ⟨before, outside⟩, rfl, rfl⟩

theorem nodup_ports_of_record (unique : r.wires.Nodup) :
    ((outsidePorts block side
      (r.wires.zipIdx.map fun (w, i) => (w, r, i))).map Prod.fst).Nodup := by
  have part : ((outsidePorts block side (r.wires.zipIdx.map fun (w, i) => (w, r, i))).map
      Prod.fst).Sublist ((r.wires.zipIdx.map fun (w, i) => (w, r, i)).map Prod.fst) := by
    refine sublist_map_filterMap ?_ _
    intro position x found
    obtain ⟨port, -, rfl⟩ := Option.map_eq_some_iff.mp found
    rfl
  have wires : (r.wires.zipIdx.map fun (w, i) => (w, r, i)).map Prod.fst = r.wires := by
    rw [List.map_map]
    exact List.zipIdx_map_fst 0 r.wires
  rw [wires] at part
  exact unique.sublist part

theorem addBoundaryPort_eq_ok_iff {port? : Option Port} {ports ports' : List (WireId × Port)} :
    addBoundaryPort block w port? ports = .ok ports' ↔
      ports' = ((outside? block port?).map fun port => (w, port)).toList ++ ports ∧
        ((outside? block port?).isSome → w ∉ ports.map Prod.fst) := by
  unfold addBoundaryPort
  cases port? with
  | none => simp [outside?, eq_comm]
  | some port =>
      by_cases inside : port.vertex ∈ block
      · simp [outside?, inside, eq_comm]
      · have new : outside? block (some port) = some port :=
          outside?_eq_some_iff.mpr ⟨rfl, inside⟩
        have known : (ports.lookup w).isSome = true ↔ w ∈ ports.map Prod.fst := by
          rw [List.lookup_isSome_iff, List.mem_map]
          constructor
          · intro given
            obtain ⟨entry, member, same⟩ := given
            exact ⟨entry, member, (beq_iff_eq.mp same).symm⟩
          · intro given
            obtain ⟨entry, member, rfl⟩ := given
            exact ⟨entry, member, beq_self_eq_true entry.1⟩
        simp only [inside, ↓reduceIte, new, Option.map_some, Option.toList_some, List.cons_append,
          List.nil_append, Option.isSome_some, forall_const]
        by_cases repeated : w ∈ ports.map Prod.fst
        · simp only [known.mpr repeated, ↓reduceIte, repeated, reduceCtorEq, not_true_eq_false,
            and_false]
        · simp only [known.not.mpr repeated, repeated, Bool.false_eq_true, ↓reduceIte,
            Except.ok.injEq, not_false_eq_true, and_true]
          exact eq_comm

def BlockBoundary.add (block : List VertexId) (boundary : BlockBoundary)
    (position : WirePosition) : Except CircuitError BlockBoundary := do
  let (w, r, i) := position
  let entries ← addBoundaryPort block w (r.port? .incoming i) boundary.entries
  let exits ← addBoundaryPort block w (r.port? .outgoing i) boundary.exits
  return { entries, exits }

theorem blockBoundary_eq (c : Circuit) (block : List VertexId) :
    c.blockBoundary block = (c.blockPositions block).foldlM (BlockBoundary.add block) {} := by
  unfold blockBoundary blockPositions
  generalize ({} : BlockBoundary) = start
  induction c.records.select block generalizing start with
  | nil => rfl
  | cons entry entries ih =>
      rw [List.flatMap_cons, List.foldlM_append, List.foldlM_cons, List.foldlM_map]
      exact congrArg _ (funext fun boundary => ih boundary)

theorem BlockBoundary.add_eq_ok_iff {boundary next : BlockBoundary} {i : Nat} :
    boundary.add block (w, r, i) = .ok next ↔
      addBoundaryPort block w (r.port? .incoming i) boundary.entries = .ok next.entries ∧
        addBoundaryPort block w (r.port? .outgoing i) boundary.exits = .ok next.exits := by
  simp only [BlockBoundary.add, bind_eq_ok_iff, pure_eq_ok, Except.ok.injEq]
  constructor
  · intro given
    obtain ⟨entries, first, exits, second, rfl⟩ := given
    exact ⟨first, second⟩
  · intro given
    obtain ⟨first, second⟩ := given
    exact ⟨_, first, _, second, rfl⟩

theorem outsidePorts_cons (block : List VertexId) (side : Side) (w : WireId) (r : Record) (i : Nat)
    (positions : List WirePosition) :
    outsidePorts block side ((w, r, i) :: positions) =
      ((outside? block (r.port? side i)).map fun port => (w, port)).toList ++
        outsidePorts block side positions := by
  simp only [outsidePorts, List.filterMap_cons]
  cases outside? block (r.port? side i) <;> rfl

theorem nodup_boundary_iff {ports ports' rest : List (WireId × Port)} {found? : Option Port} :
    (∃ next, (next = (found?.map fun port => (w, port)).toList ++ ports ∧
        (found?.isSome → w ∉ ports.map Prod.fst)) ∧
      ports' = rest.reverse ++ next ∧ (ports'.map Prod.fst).Nodup) ↔
    ports' = ((found?.map fun port => (w, port)).toList ++ rest).reverse ++ ports ∧
      (ports'.map Prod.fst).Nodup := by
  cases found? with
  | none => simp
  | some port =>
      simp only [Option.map_some, Option.toList_some, List.cons_append, List.nil_append,
        Option.isSome_some, forall_const, List.reverse_cons, List.append_assoc]
      constructor
      · intro given
        obtain ⟨next, ⟨rfl, -⟩, shape, distinct⟩ := given
        exact ⟨shape, distinct⟩
      · intro given
        obtain ⟨rfl, distinct⟩ := given
        refine ⟨_, ⟨rfl, ?_⟩, rfl, distinct⟩
        rw [List.map_append, List.map_cons] at distinct
        exact (List.nodup_cons.mp (List.nodup_append.mp distinct).2.1).1

/-- The boundary of wire positions is found when no wire has two outside ports on a side. -/
theorem foldlM_boundary_eq_ok_iff (positions : List WirePosition) {start boundary : BlockBoundary}
    (entries : (start.entries.map Prod.fst).Nodup) (exits : (start.exits.map Prod.fst).Nodup) :
    positions.foldlM (BlockBoundary.add block) start = .ok boundary ↔
      (boundary.entries = (outsidePorts block .incoming positions).reverse ++ start.entries ∧
        (boundary.entries.map Prod.fst).Nodup) ∧
      boundary.exits = (outsidePorts block .outgoing positions).reverse ++ start.exits ∧
        (boundary.exits.map Prod.fst).Nodup := by
  induction positions generalizing start with
  | nil =>
      simp only [List.foldlM_nil, pure_eq_ok, Except.ok.injEq, outsidePorts, List.filterMap_nil,
        List.reverse_nil, List.nil_append]
      constructor
      · intro same
        obtain rfl := same
        exact ⟨⟨rfl, entries⟩, rfl, exits⟩
      · intro given
        obtain ⟨⟨sameEntries, -⟩, sameExits, -⟩ := given
        cases boundary
        cases start
        cases sameEntries
        cases sameExits
        rfl
  | cons position positions ih =>
      obtain ⟨w, r, i⟩ := position
      rw [List.foldlM_cons, bind_eq_ok_iff, outsidePorts_cons, outsidePorts_cons,
        ← nodup_boundary_iff, ← nodup_boundary_iff]
      simp only [BlockBoundary.add_eq_ok_iff, addBoundaryPort_eq_ok_iff]
      have grown : ∀ {ports next : List (WireId × Port)} {found? : Option Port},
          (ports.map Prod.fst).Nodup →
          next = (found?.map fun port => (w, port)).toList ++ ports ∧
            (found?.isSome → w ∉ ports.map Prod.fst) → (next.map Prod.fst).Nodup := by
        intro ports next found? unique given
        obtain ⟨rfl, fresh⟩ := given
        cases found? with
        | none => exact unique
        | some port => exact List.nodup_cons.mpr ⟨fresh rfl, unique⟩
      constructor
      · intro given
        obtain ⟨next, ⟨first, second⟩, rest⟩ := given
        obtain ⟨left, right⟩ := (ih (grown entries first) (grown exits second)).mp rest
        exact ⟨⟨next.entries, first, left⟩, next.exits, second, right⟩
      · intro given
        obtain ⟨⟨nextEntries, first, left⟩, nextExits, second, right⟩ := given
        refine ⟨⟨nextEntries, nextExits⟩, ⟨first, second⟩, ?_⟩
        exact (ih (grown entries first) (grown exits second)).mpr ⟨left, right⟩

/-- The boundary of a block is found when no wire enters or leaves the block twice. -/
theorem blockBoundary_eq_ok_iff {boundary : BlockBoundary} :
    c.blockBoundary block = .ok boundary ↔
      (boundary.entries = (outsidePorts block .incoming (c.blockPositions block)).reverse ∧
        (boundary.entries.map Prod.fst).Nodup) ∧
      boundary.exits = (outsidePorts block .outgoing (c.blockPositions block)).reverse ∧
        (boundary.exits.map Prod.fst).Nodup := by
  have found := @foldlM_boundary_eq_ok_iff block (c.blockPositions block) {} boundary
    List.nodup_nil List.nodup_nil
  rw [blockBoundary_eq, found]
  simp only [List.append_nil]

/-! ## The boundary on the lines -/

theorem Layout.port?_operation (layout : c.Layout line) (live : c.records.Live v r)
    (operation : r.isAnchor = false) {i : Nat} (position : r.wires[i]? = some w) (side : Side) :
    ∃ x, Beside (line w) side v x ∧ r.port? side i = some (c.records.portOn w x) := by
  obtain ⟨front, a, b, back, shape, before, after⟩ := layout.operation_spec live operation position
  cases side with
  | incoming => exact ⟨a, ⟨front, b :: back, shape⟩, before⟩
  | outgoing => exact ⟨b, ⟨front ++ [a], back, by simp [shape]⟩, after⟩

/-- The outside ports of a block are the neighbours of its vertices that are not in it. -/
theorem Layout.mem_outsidePorts (layout : c.Layout line)
    (operations : ∀ v ∈ block, c.IsOperation v) {port : Port} :
    (w, port) ∈ outsidePorts block side (c.blockPositions block) ↔
      ∃ v ∈ block, ∃ x, Beside (line w) side v x ∧ x ∉ block ∧ port = c.records.portOn w x := by
  rw [Circuit.mem_outsidePorts]
  constructor
  · intro given
    obtain ⟨v, member, r, i, found, position, led, outside⟩ := given
    obtain ⟨s, live, operation⟩ := operations v member
    obtain rfl := Option.some.inj (found.symm.trans live.1)
    obtain ⟨x, beside, port⟩ := layout.port?_operation live operation position side
    obtain rfl := Option.some.inj (led.symm.trans port)
    exact ⟨v, member, x, beside, outside, rfl⟩
  · intro given
    obtain ⟨v, member, x, beside, outside, rfl⟩ := given
    obtain ⟨r, live, operation⟩ := operations v member
    obtain ⟨s, live', carried⟩ := layout.carries beside.mem.1
    obtain rfl := live.unique live'
    obtain ⟨i, position⟩ := List.getElem?_of_mem carried
    obtain ⟨y, beside', port⟩ := layout.port?_operation live operation position side
    obtain rfl := beside.unique (layout.strung w).nodup beside'
    exact ⟨v, member, r, i, live.1, position, port, outside⟩

theorem lookup_eq_some_iff_mem {ports : List (WireId × Port)} {port : Port}
    (unique : (ports.map Prod.fst).Nodup) : ports.lookup w = some port ↔ (w, port) ∈ ports := by
  induction ports with
  | nil => simp
  | cons entry ports ih =>
      obtain ⟨x, p⟩ := entry
      obtain ⟨fresh, rest⟩ := List.nodup_cons.mp unique
      rw [List.lookup_cons, List.mem_cons, Prod.mk.injEq]
      by_cases same : w = x
      · subst same
        have absent : (w, port) ∉ ports := fun member =>
          fresh (List.mem_map.mpr ⟨_, member, rfl⟩)
        simp [absent, eq_comm]
      · have apart : (w == x) = false := by simpa using same
        simp only [apart, same, false_and, false_or, ih rest]

theorem mem_passages {boundary : BlockBoundary} {source target : Port}
    (entries : (boundary.entries.map Prod.fst).Nodup)
    (exits : (boundary.exits.map Prod.fst).Nodup) :
    (w, source, target) ∈ boundary.passages ↔
      (w, source) ∈ boundary.entries ∧ (w, target) ∈ boundary.exits := by
  rw [← lookup_eq_some_iff_mem entries, ← lookup_eq_some_iff_mem exits]
  simp only [BlockBoundary.passages, List.mem_filterMap, mem_sortedSet]
  constructor
  · intro given
    obtain ⟨x, -, found⟩ := given
    cases before : boundary.entries.lookup x <;> cases after : boundary.exits.lookup x <;>
      simp [before, after] at found
    obtain ⟨rfl, rfl, rfl⟩ := found
    exact ⟨before, after⟩
  · intro given
    obtain ⟨before, after⟩ := given
    refine ⟨w, ?_, by simp [before, after]⟩
    have member := (lookup_eq_some_iff_mem entries).mp before
    exact List.mem_map.mpr ⟨_, member, rfl⟩

theorem nodup_passages {boundary : BlockBoundary}
    (entries : (boundary.entries.map Prod.fst).Nodup) :
    (boundary.passages.map Prod.fst).Nodup := by
  have sorted : (sortedSet (· < ·) (boundary.entries.map Prod.fst)).Nodup :=
    (sortedSet_perm _ entries).symm.nodup entries
  rw [BlockBoundary.passages, List.map_filterMap]
  refine sorted.filterMap ?_
  intro x y z inX inY
  cases xIn : boundary.entries.lookup x <;> cases xOut : boundary.exits.lookup x <;>
    cases yIn : boundary.entries.lookup y <;> cases yOut : boundary.exits.lookup y <;>
    simp [xIn, xOut, yIn, yOut] at inX inY
  exact inX.trans inY.symm

/-- On every wire that meets it, a block with a boundary is a part without gaps. -/
theorem Layout.exists_block_part (layout : c.Layout line)
    (operations : ∀ v ∈ block, c.IsOperation v) {boundary : BlockBoundary}
    (found : c.blockBoundary block = .ok boundary) (met : ∃ v ∈ line w, v ∈ block) :
    ∃ front a middle b back, line w = (front ++ [a]) ++ middle ++ b :: back ∧ middle ≠ [] ∧
      (∀ x ∈ front ++ [a], x ∉ block) ∧ (∀ x ∈ middle, x ∈ block) ∧
      (∀ x ∈ b :: back, x ∉ block) ∧ (w, c.records.portOn w a) ∈ boundary.entries ∧
      (w, c.records.portOn w b) ∈ boundary.exits := by
  obtain ⟨⟨entries, distinct⟩, exits, -⟩ := blockBoundary_eq_ok_iff.mp found
  have inEntries : ∀ a v, Adjacent (line w) a v → a ∉ block → v ∈ block →
      (w, c.records.portOn w a) ∈ boundary.entries := by
    intro a v adjacent outside inside
    rw [entries, List.mem_reverse, layout.mem_outsidePorts operations]
    exact ⟨v, inside, a, adjacent, outside, rfl⟩
  have ends : ∀ side x, tip? (line w) side = some x → x ∉ block := by
    intro side x tip inside
    obtain ⟨r, live, element, -⟩ := layout.live_of_tip? tip
    obtain ⟨s, live', operation⟩ := operations x inside
    rw [← live.unique live', Record.isAnchor, element] at operation
    cases side <;> cases operation
  obtain ⟨front, a, middle, b, back, shape, nonempty, before, inside, behind⟩ :=
    exists_contiguous (· ∈ block) (layout.strung w).nodup (ends .incoming)
      (ends .outgoing) met (by
        intro a v a' v' first outside inside second outside' inside'
        have same := List.inj_on_of_nodup_map distinct (inEntries a v first outside inside)
          (inEntries a' v' second outside' inside') rfl
        exact (Records.portOn_injective (layout.carries first.mem_left)
          (layout.carries second.mem_left) (congrArg Prod.snd same)).1)
  refine ⟨front, a, middle, b, back, shape, nonempty, before, inside, behind, ?_, ?_⟩
  · cases middle with
    | nil => exact absurd rfl nonempty
    | cons m middle =>
        exact inEntries a m ⟨front, middle ++ b :: back, by simp [shape]⟩ (before a (by simp))
          (inside m List.mem_cons_self)
  · rcases List.eq_nil_or_concat middle with rfl | ⟨middle, m, rfl⟩
    · exact absurd rfl nonempty
    · rw [exits, List.mem_reverse, layout.mem_outsidePorts operations]
      exact ⟨m, inside m (by simp), b, ⟨front ++ [a] ++ middle, back, by simp [shape]⟩,
        behind b List.mem_cons_self, rfl⟩

theorem Layout.passes_block (layout : c.Layout line)
    (operations : ∀ v ∈ block, c.IsOperation v) {boundary : BlockBoundary}
    (found : c.blockBoundary block = .ok boundary) :
    c.Passes line block boundary.passages := by
  obtain ⟨⟨entries, distinct⟩, -, distinct'⟩ := blockBoundary_eq_ok_iff.mp found
  refine ⟨nodup_passages distinct, ?_, ?_⟩
  · intro w met
    obtain ⟨front, a, middle, b, back, -, -, -, -, -, entry, exit⟩ :=
      layout.exists_block_part operations found met
    exact List.mem_map.mpr ⟨_, (mem_passages distinct distinct').mpr ⟨entry, exit⟩, rfl⟩
  · intro w source target member
    obtain ⟨inEntries, inExits⟩ := (mem_passages distinct distinct').mp member
    have met : ∃ v ∈ line w, v ∈ block := by
      rw [entries, List.mem_reverse, layout.mem_outsidePorts operations] at inEntries
      obtain ⟨v, inside, x, beside, -⟩ := inEntries
      exact ⟨v, beside.mem.1, inside⟩
    obtain ⟨front, a, middle, b, back, shape, nonempty, before, inside, behind, entry, exit⟩ :=
      layout.exists_block_part operations found met
    refine ⟨front, a, middle, b, back, shape, nonempty, before, inside, behind, ?_, ?_⟩
    · exact congrArg Prod.snd (List.inj_on_of_nodup_map distinct inEntries entry rfl)
    · exact congrArg Prod.snd (List.inj_on_of_nodup_map distinct' inExits exit rfl)

/-! ## Removing a block -/

/-- The vertex that a listed vertex has become, if it is there. -/
def current? (map? : Option VertexMap) (v : VertexId) : Option VertexId :=
  match map? with
  | none => some v
  | some m => m.get? v

theorem removable_eq_ok_iff {u : VertexId} :
    (do discard (c.checkRemovable v); pure v : Except CircuitError VertexId) = .ok u ↔
      v = u ∧ c.IsOperation v := by
  unfold IsOperation
  simp only [← checkRemovable_eq_ok_iff]
  cases checked : c.checkRemovable v with
  | error cause => exact iff_of_false nofun nofun
  | ok r => exact ⟨fun same => ⟨Except.ok.inj same, r, rfl⟩, fun given => congrArg _ given.1⟩

theorem blockVertices_eq (c : Circuit) (map? : Option VertexMap) (vs : List VertexId) :
    c.blockVertices map? vs = vs.mapM fun v => match current? map? v with
      | some w => (do discard (c.checkRemovable w); pure w : Except CircuitError VertexId)
      | none => .error (.invalidVertex v .lostInCompaction) := by
  unfold blockVertices
  congr 1
  funext v
  cases map? with
  | none => rfl
  | some m =>
      simp only [current?]
      cases m.get? v <;> rfl

/-- A block is found if all its vertices are there and are operations. -/
theorem blockVertices_eq_ok_iff {map? : Option VertexMap} {vs : List VertexId} :
    c.blockVertices map? vs = .ok block ↔
      vs.mapM (current? map?) = some block ∧ ∀ v ∈ block, c.IsOperation v := by
  have each : ∀ v u, (match current? map? v with
      | some w => (do discard (c.checkRemovable w); pure w : Except CircuitError VertexId)
      | none => .error (.invalidVertex v .lostInCompaction)) = .ok u ↔
        current? map? v = some u ∧ c.IsOperation u := by
    intro v u
    cases current? map? v with
    | none => exact iff_of_false nofun nofun
    | some w =>
        rw [removable_eq_ok_iff, Option.some.injEq]
        exact and_congr_right fun same => same ▸ Iff.rfl
  rw [blockVertices_eq, mapM_eq_ok_iff, mapM_eq_some_iff]
  simp only [each]
  constructor
  · intro all
    induction all with
    | nil => exact ⟨.nil, nofun⟩
    | cons first _ ih => exact ⟨.cons first.1 ih.1, List.forall_mem_cons.mpr ⟨first.2, ih.2⟩⟩
  · intro given
    obtain ⟨all, operations⟩ := given
    induction all with
    | nil => exact .nil
    | cons first _ ih =>
        obtain ⟨operation, others⟩ := List.forall_mem_cons.mp operations
        exact .cons ⟨first, operation⟩ (ih others)

theorem blockVertices_operations {map? : Option VertexMap} {vs : List VertexId}
    (found : c.blockVertices map? vs = .ok block) : ∀ v ∈ block, c.IsOperation v :=
  (blockVertices_eq_ok_iff.mp found).2

theorem removeBlock_run (vs : List VertexId) (map? : Option VertexMap) (c : Circuit) :
    (removeBlock vs map?).run c = match c.blockVertices map? vs with
      | .error cause => .error cause c
      | .ok block => match block.head?, block.getLast? with
        | some first, some last => match c.checkBlock block first last with
          | .error cause => .error cause c
          | .ok boundary => .ok () (c.cutBlock block boundary)
        | _, _ => .ok () c := by
  simp only [removeBlock, EStateM.run_bind, EStateM.run_get, liftResult_run]
  cases c.blockVertices map? vs with
  | error cause => rfl
  | ok block =>
      cases start : block.head? with
      | none => simp only [start, EStateM.run_pure]
      | some first => cases stop : block.getLast? with
        | none => simp only [start, stop, EStateM.run_pure]
        | some last =>
            simp only [start, stop, EStateM.run_bind, liftResult_run]
            cases c.checkBlock block first last <;> rfl

theorem checkBlock_eq_ok_iff {first last : VertexId} {boundary : BlockBoundary} :
    c.checkBlock block first last = .ok boundary ↔ block.Nodup ∧
      c.blockBoundary block = .ok boundary ∧ c.hasNeighborOutside block .incoming first = true ∧
      c.hasNeighborOutside block .outgoing last = true := by
  simp only [checkBlock]
  rw [unless_eq_ok_iff, not_not, bind_eq_ok_iff]
  refine and_congr_right fun _ => ?_
  constructor
  · intro given
    obtain ⟨found, first, rest⟩ := given
    obtain ⟨before, rest⟩ := unless_eq_ok_iff.mp rest
    obtain ⟨behind, last⟩ := unless_eq_ok_iff.mp rest
    cases last
    exact ⟨first, by simpa using before, by simpa using behind⟩
  · intro given
    obtain ⟨found, before, behind⟩ := given
    refine ⟨boundary, found, unless_eq_ok_iff.mpr ⟨by simp [before], ?_⟩⟩
    exact unless_eq_ok_iff.mpr ⟨by simp [behind], rfl⟩

/-- A removal succeeds without a vertex, and else if the block passes the check. -/
theorem removeBlock_eq_ok_iff {vs : List VertexId} {map? : Option VertexMap} {c' : Circuit} :
    (removeBlock vs map?).run c = .ok () c' ↔ ∃ block, c.blockVertices map? vs = .ok block ∧
      ((block = [] ∧ c' = c) ∨ ∃ first last boundary, block.head? = some first ∧
        block.getLast? = some last ∧ c.checkBlock block first last = .ok boundary ∧
        c' = c.excise block boundary.passages) := by
  rw [removeBlock_run]
  cases chosen : c.blockVertices map? vs with
  | error cause => simp
  | ok block =>
      cases block with
      | nil => simp [eq_comm]
      | cons first rest =>
          obtain ⟨last, stop⟩ : ∃ last, (first :: rest).getLast? = some last :=
            ⟨_, List.getLast?_eq_some_getLast (List.cons_ne_nil first rest)⟩
          simp only [List.head?_cons, stop, Except.ok.injEq, exists_eq_left', reduceCtorEq,
            false_and, false_or, Option.some.injEq]
          cases checked : c.checkBlock (first :: rest) first last with
          | error cause => simp [checked]
          | ok boundary => simp [checked, cutBlock_eq, eq_comm]

theorem eq_of_removeBlock_error {vs : List VertexId} {map? : Option VertexMap}
    {cause : CircuitError} {c' : Circuit} (run : (removeBlock vs map?).run c = .error cause c') :
    c' = c := by
  rw [removeBlock_run] at run
  split at run
  · cases run
    rfl
  · split at run
    · split at run
      · cases run
        rfl
      · cases run
    · cases run

theorem LaidOut.removeBlock (laid : c.LaidOut) (vs : List VertexId) (map? : Option VertexMap) :
    ((removeBlock vs map?).after c).LaidOut := by
  obtain ⟨line, layout⟩ := id laid
  rw [Edit.after]
  cases run : (Circuit.removeBlock vs map?).run c with
  | error cause c' => exact eq_of_removeBlock_error run ▸ laid
  | ok _ c' =>
      obtain ⟨block, chosen, ⟨-, rfl⟩ | ⟨first, last, boundary, -, -, checked, rfl⟩⟩ :=
        removeBlock_eq_ok_iff.mp run
      · exact laid
      · have operations := blockVertices_operations chosen
        obtain ⟨unique, found, -⟩ := checkBlock_eq_ok_iff.mp checked
        exact ⟨_, layout.excise unique operations (layout.passes_block operations found)⟩

end CircuitDag.Circuit
