import CircuitDag.Proofs.Circuit.Remainder

/-!
# Which blocks can be removed

No wire enters or leaves a block twice exactly if the members of the block stand together on every
wire. Such a block can be removed if besides its first member has a neighbour before it and its last
member one behind it, and this comes to the same as removing its members one by one.
-/

set_option autoImplicit false

namespace CircuitDag

/-- The members of a block stand together in a list. -/
def Contiguous (block l : List VertexId) : Prop :=
  ∃ front middle back, l = front ++ middle ++ back ∧ (∀ x ∈ front, x ∉ block) ∧
    (∀ x ∈ middle, x ∈ block) ∧ ∀ x ∈ back, x ∉ block

variable {block l : List VertexId} {u v x y : VertexId} {side : Side}

theorem contiguous_of_apart (apart : ∀ x ∈ l, x ∉ block) : Contiguous block l :=
  ⟨l, [], [], by simp, apart, nofun, nofun⟩

theorem Adjacent.contiguous (adjacent : Adjacent l u v) (unique : l.Nodup) :
    Contiguous [u, v] l := by
  obtain ⟨front, back, rfl⟩ := adjacent
  obtain ⟨-, behind, before⟩ := List.nodup_append.mp unique
  simp only [List.nodup_cons, List.mem_cons, not_or] at behind
  refine ⟨front, [u, v], back, by simp, fun x inFront inside => ?_, fun x inside => inside, ?_⟩
  · exact before x inFront x (List.mem_append_left back inside) rfl
  · intro x inBack inside
    simp only [List.mem_cons, List.not_mem_nil, or_false] at inside
    rcases inside with rfl | rfl
    · exact behind.1.2 inBack
    · exact behind.2.1 inBack

/-- What is on the other side of one of two neighbours is none of them. -/
theorem Circuit.Beside.ne_of_opposite (unique : l.Nodup) (beside : Circuit.Beside l side u v)
    (other : Circuit.Beside l side.opposite u x) : x ≠ u ∧ x ≠ v := by
  cases side with
  | incoming =>
      have before : Adjacent l v u := beside
      have behind : Adjacent l u x := other
      refine ⟨(behind.ne unique).symm, fun same => ?_⟩
      exact before.before.asymm unique (same ▸ behind.before)
  | outgoing =>
      have before : Adjacent l x u := other
      have behind : Adjacent l u v := beside
      refine ⟨before.ne unique, fun same => ?_⟩
      exact before.before.asymm unique (same ▸ behind.before)

/-- Contiguity does not depend on names. -/
theorem contiguous_map_iff {f : VertexId → VertexId} {block' : List VertexId}
    (inside_iff : ∀ x ∈ l, f x ∈ block' ↔ x ∈ block) :
    Contiguous block' (l.map f) ↔ Contiguous block l := by
  constructor
  · intro given
    obtain ⟨front, middle, back, shape, before, within, behind⟩ := given
    obtain ⟨start, back, rfl, split, rfl⟩ := List.map_eq_append_iff.mp shape
    obtain ⟨front, middle, rfl, rfl, rfl⟩ := List.map_eq_append_iff.mp split
    simp only [List.mem_append] at inside_iff
    refine ⟨front, middle, back, rfl, fun x member => ?_, fun x member => ?_, fun x member => ?_⟩
    · exact (inside_iff x (.inl (.inl member))).not.mp (before _ (List.mem_map_of_mem member))
    · exact (inside_iff x (.inl (.inr member))).mp (within _ (List.mem_map_of_mem member))
    · exact (inside_iff x (.inr member)).not.mp (behind _ (List.mem_map_of_mem member))
  · intro given
    obtain ⟨front, middle, back, rfl, before, within, behind⟩ := given
    simp only [List.mem_append] at inside_iff
    refine ⟨front.map f, middle.map f, back.map f, by simp, ?_, ?_, ?_⟩
    · refine List.forall_mem_map.mpr fun x member => ?_
      exact (inside_iff x (.inl (.inl member))).not.mpr (before x member)
    · refine List.forall_mem_map.mpr fun x member => ?_
      exact (inside_iff x (.inl (.inr member))).mpr (within x member)
    · refine List.forall_mem_map.mpr fun x member => ?_
      exact (inside_iff x (.inr member)).not.mpr (behind x member)

/-- A list goes in or out of a contiguous block at most at one member. -/
theorem Contiguous.unique (contiguous : Contiguous block l) (first : Circuit.Beside l side u x)
    (inside : u ∈ block) (outside : x ∉ block) (second : Circuit.Beside l side v y)
    (inside' : v ∈ block) (outside' : y ∉ block) : u = v := by
  obtain ⟨front, middle, back, rfl, before, within, behind⟩ := contiguous
  -- A member with a neighbour that is not in the block is at the tip of the part that is.
  have tip : ∀ {u x}, Circuit.Beside (front ++ middle ++ back) side u x → u ∈ block →
      x ∉ block → Circuit.tip? middle side = some u := by
    intro u x beside inside outside
    have notFront : u ∉ front := fun member => before u member inside
    have notBack : u ∉ back := fun member => behind u member inside
    have notMiddle : x ∉ middle := fun member => outside (within x member)
    cases side with
    | incoming =>
        have beside : Adjacent (front ++ middle ++ back) x u := beside
        rw [adjacent_append, adjacent_append] at beside
        rcases beside with (early | ⟨-, entry⟩ | inner) | ⟨-, late⟩ | late
        · exact absurd early.mem_right notFront
        · exact entry
        · exact absurd inner.mem_left notMiddle
        · exact absurd (List.mem_of_head? late) notBack
        · exact absurd late.mem_right notBack
    | outgoing =>
        have beside : Adjacent (front ++ middle ++ back) u x := beside
        rw [List.append_assoc, adjacent_append, adjacent_append] at beside
        rcases beside with early | ⟨early, -⟩ | inner | ⟨exit, -⟩ | late
        · exact absurd early.mem_left notFront
        · exact absurd (List.mem_of_getLast? early) notFront
        · exact absurd inner.mem_right notMiddle
        · exact exit
        · exact absurd late.mem_left notBack
  exact Option.some.inj ((tip first inside outside).symm.trans (tip second inside' outside'))

namespace Circuit

variable {c c' : Circuit} {line : WireId → List VertexId} {w : WireId} {r : Record}

/-- A vertex has a neighbour on a side that is not in a block. -/
def LeadsOut (c : Circuit) (block : List VertexId) (side : Side) (v : VertexId) : Prop :=
  ∃ w u, c.neighborOn side v w = .ok u ∧ u ∉ block

/-- A block of operations that can be removed. -/
@[mk_iff]
structure IsBlock (c : Circuit) (block : List VertexId) : Prop where
  operations : ∀ v ∈ block, c.IsOperation v
  nodup : block.Nodup
  contiguous : ∀ w, Contiguous block (c.wireVertices w)
  entered : ∃ first, block.head? = some first ∧ c.LeadsOut block .incoming first
  left : ∃ last, block.getLast? = some last ∧ c.LeadsOut block .outgoing last

theorem Layout.leadsOut_iff (layout : c.Layout line) :
    c.LeadsOut block side v ↔ ∃ w x, Beside (line w) side v x ∧ x ∉ block := by
  simp only [LeadsOut, layout.neighborOn_eq_ok_iff]

theorem Layout.hasNeighborOutside_iff (layout : c.Layout line) (operation : c.IsOperation v) :
    c.hasNeighborOutside block side v = true ↔ c.LeadsOut block side v := by
  obtain ⟨r, live, -⟩ := operation
  rw [hasNeighborOutside, live.1, layout.leadsOut_iff]
  simp only [List.any_eq_true, Bool.not_eq_true', List.contains_eq_mem, decide_eq_false_iff_not,
    layout.mem_neighbors_iff live]
  constructor
  · intro given
    obtain ⟨u, ⟨w, -, beside⟩, outside⟩ := given
    exact ⟨w, u, beside, outside⟩
  · intro given
    obtain ⟨w, u, beside, outside⟩ := given
    obtain ⟨s, live', carried⟩ := layout.carries beside.mem.1
    exact ⟨u, ⟨w, live.unique live' ▸ carried, beside⟩, outside⟩

/-- A wire with an outside port at an operation leads out of the block there. -/
theorem Layout.exists_beside_outside (layout : c.Layout line) (live : c.records.Live v r)
    (operation : r.isAnchor = false) (member : w ∈ (outsidePorts block side
      (r.wires.zipIdx.map fun (w, i) => (w, r, i))).map Prod.fst) :
    ∃ x, Beside (line w) side v x ∧ x ∉ block := by
  simp only [outsidePorts, List.mem_map, List.mem_filterMap, Prod.exists,
    List.mk_mem_zipIdx_iff_getElem?, Option.map_eq_some_iff, outside?_eq_some_iff] at member
  obtain ⟨x, p, ⟨y, s, i, ⟨z, j, position, rfl, rfl, rfl⟩, port, ⟨led, outside⟩, same⟩, rfl⟩ :=
    member
  cases same
  obtain ⟨x, beside, led'⟩ := layout.port?_operation live operation position side
  obtain rfl := Option.some.inj (led.symm.trans led')
  exact ⟨x, beside, outside⟩

/-- No wire leads in or out of a contiguous block twice. -/
theorem Layout.nodup_outsidePorts (layout : c.Layout line)
    (operations : ∀ v ∈ block, c.IsOperation v) (unique : block.Nodup)
    (contiguous : ∀ w, Contiguous block (line w)) (side : Side) :
    ((outsidePorts block side (c.blockPositions block)).map Prod.fst).Nodup := by
  have known : ∀ entry ∈ c.records.select block, entry.1 ∈ block ∧
      c.records.Live entry.1 entry.2 ∧ entry.2.isAnchor = false := by
    intro entry listed
    obtain ⟨member, found⟩ := Records.mem_select.mp listed
    obtain ⟨r, live, operation⟩ := operations entry.1 member
    obtain rfl := Option.some.inj (found.symm.trans live.1)
    exact ⟨member, live, operation⟩
  rw [outsidePorts, blockPositions, List.filterMap_flatMap, List.map_flatMap, List.nodup_flatMap]
  refine ⟨fun entry listed => ?_, ?_⟩
  · obtain ⟨-, live, -⟩ := known entry listed
    exact nodup_ports_of_record (layout.wired _ _ live).nodup
  -- Two members with outside ports on one wire would both be at the tip of the block there.
  · refine (List.pairwise_map.mp (Records.nodup_select unique)).imp_of_mem ?_
    intro entry entry' listed listed' different w first second
    obtain ⟨inside, live, operation⟩ := known entry listed
    obtain ⟨inside', live', operation'⟩ := known entry' listed'
    obtain ⟨x, beside, outside⟩ := layout.exists_beside_outside live operation first
    obtain ⟨y, beside', outside'⟩ := layout.exists_beside_outside live' operation' second
    exact different ((contiguous w).unique beside inside outside beside' inside' outside')

/-- The boundary of a block of operations is found if the block is contiguous on every line. -/
theorem Layout.exists_boundary_iff (layout : c.Layout line)
    (operations : ∀ v ∈ block, c.IsOperation v) (unique : block.Nodup) :
    (∃ boundary, c.blockBoundary block = .ok boundary) ↔ ∀ w, Contiguous block (line w) := by
  constructor
  · intro given w
    obtain ⟨boundary, found⟩ := given
    by_cases met : ∃ v ∈ line w, v ∈ block
    · obtain ⟨front, a, middle, b, back, shape, -, before, inside, behind, -⟩ :=
        layout.exists_block_part operations found met
      exact ⟨front ++ [a], middle, b :: back, shape, before, inside, behind⟩
    · exact contiguous_of_apart fun x member inside => met ⟨x, member, inside⟩
  · intro contiguous
    have distinct := layout.nodup_outsidePorts operations unique contiguous
    refine ⟨⟨(outsidePorts block .incoming (c.blockPositions block)).reverse,
      (outsidePorts block .outgoing (c.blockPositions block)).reverse⟩,
      blockBoundary_eq_ok_iff.mpr ⟨⟨rfl, ?_⟩, rfl, ?_⟩⟩
    · rw [List.map_reverse]
      exact List.nodup_reverse.mpr (distinct .incoming)
    · rw [List.map_reverse]
      exact List.nodup_reverse.mpr (distinct .outgoing)

/-- The blocks that can be removed are those that pass the check. -/
theorem Layout.isBlock_iff_checkBlock (layout : c.Layout line) :
    c.IsBlock block ↔ (∀ v ∈ block, c.IsOperation v) ∧ ∃ first last boundary,
      block.head? = some first ∧ block.getLast? = some last ∧
      c.checkBlock block first last = .ok boundary := by
  have lines : (∀ w, Contiguous block (c.wireVertices w)) ↔ ∀ w, Contiguous block (line w) := by
    simp only [layout.wireVertices_eq]
  constructor
  · intro isBlock
    obtain ⟨operations, unique, contiguous, ⟨first, head, before⟩, last, tail, behind⟩ := isBlock
    obtain ⟨boundary, found⟩ :=
      (layout.exists_boundary_iff operations unique).mpr (lines.mp contiguous)
    have entered :=
      (layout.hasNeighborOutside_iff (operations first (List.mem_of_head? head))).mpr before
    have left :=
      (layout.hasNeighborOutside_iff (operations last (List.mem_of_getLast? tail))).mpr behind
    exact ⟨operations, first, last, boundary, head, tail,
      checkBlock_eq_ok_iff.mpr ⟨unique, found, entered, left⟩⟩
  · intro given
    obtain ⟨operations, first, last, boundary, head, tail, checked⟩ := given
    obtain ⟨unique, found, entered, left⟩ := checkBlock_eq_ok_iff.mp checked
    have before :=
      (layout.hasNeighborOutside_iff (operations first (List.mem_of_head? head))).mp entered
    have behind :=
      (layout.hasNeighborOutside_iff (operations last (List.mem_of_getLast? tail))).mp left
    exact ⟨operations, unique,
      lines.mpr ((layout.exists_boundary_iff operations unique).mp ⟨boundary, found⟩),
      ⟨first, head, before⟩, last, tail, behind⟩

/-! ## Removal of a block -/

/-- A removal succeeds if the vertices have not been lost and are a block, if there are any. -/
theorem Layout.removes_iff (layout : c.Layout line) {vs : List VertexId} {map? : Option VertexMap} :
    (∃ c', (removeBlock vs map?).run c = .ok () c') ↔
      ∃ block, vs.mapM (current? map?) = some block ∧ (block = [] ∨ c.IsBlock block) := by
  simp only [removeBlock_eq_ok_iff, blockVertices_eq_ok_iff, layout.isBlock_iff_checkBlock]
  constructor
  · intro given
    obtain ⟨c', block, ⟨chosen, operations⟩, ⟨empty, -⟩ | ⟨first, last, boundary, head, tail,
      checked, -⟩⟩ := given
    · exact ⟨block, chosen, .inl empty⟩
    · exact ⟨block, chosen, .inr ⟨operations, first, last, boundary, head, tail, checked⟩⟩
  · intro given
    obtain ⟨block, chosen, rfl | ⟨operations, first, last, boundary, head, tail, checked⟩⟩ := given
    · exact ⟨c, [], ⟨chosen, nofun⟩, .inl ⟨rfl, rfl⟩⟩
    · exact ⟨_, block, ⟨chosen, operations⟩, .inr ⟨first, last, boundary, head, tail, checked, rfl⟩⟩

theorem Layout.excised_of_removeBlock (layout : c.Layout line) {vs : List VertexId}
    {map? : Option VertexMap} (run : (removeBlock vs map?).run c = .ok () c') :
    ∃ block, vs.mapM (current? map?) = some block ∧ block.Nodup ∧
      (∀ v ∈ block, c.IsOperation v) ∧ c.Excised line block c' := by
  obtain ⟨block, chosen, given⟩ := removeBlock_eq_ok_iff.mp run
  obtain ⟨current, operations⟩ := blockVertices_eq_ok_iff.mp chosen
  rcases given with ⟨rfl, rfl⟩ | ⟨first, last, boundary, -, -, checked, rfl⟩
  · exact ⟨[], current, List.nodup_nil, nofun, layout.excised_nil⟩
  · obtain ⟨unique, found, -⟩ := checkBlock_eq_ok_iff.mp checked
    exact ⟨block, current, unique, operations,
      layout.excised unique operations (layout.passes_block operations found)⟩

theorem mapM_current?_none (vs : List VertexId) : vs.mapM (current? none) = some vs := by
  induction vs with
  | nil => rfl
  | cons v vs ih => rw [List.mapM_cons, ih, current?]; rfl

/-- Vertices can be removed at a time if they are a block, and what is left is the same as if they
had been removed one by one in any order. -/
theorem removeBlock_removes_each (reachable : c.Reachable) (vs : List VertexId) :
    ((∃ c', (removeBlock vs).run c = .ok () c') ↔ vs = [] ∨ c.IsBlock vs) ∧
    ∀ c', (removeBlock vs).run c = .ok () c' → ∀ order : List VertexId, order.Perm vs →
      ∃ c'', (order.forM fun v => discard (removeOperation v)).run c = .ok () c'' ∧
        c'.Agrees c'' := by
  obtain ⟨line, layout⟩ := reachable.laidOut
  constructor
  · rw [layout.removes_iff, mapM_current?_none]
    simp
  · intro c' run order perm
    obtain ⟨block, chosen, unique, operations, excised⟩ := layout.excised_of_removeBlock run
    obtain rfl := Option.some.inj (chosen.symm.trans (mapM_current?_none vs))
    obtain ⟨c'', each, excised'⟩ := layout.removeAll (perm.nodup_iff.mpr unique)
      fun v member => operations v (perm.mem_iff.mp member)
    exact ⟨c'', each, excised.agrees excised' layout.coherent perm⟩

/-- Two operations with another one between them that shares a wire with each. -/
theorem removeBlock_around_operation :
    let c := Change.after (Change.after (Change.after (blank 3 0)
      (.addOperation { element := .cx } [0, 1] [])) (.addOperation { element := .cx } [1, 2] []))
      (.addOperation { element := .h } [2] [])
    ∃ c' c'', (removeBlock [6, 8]).run c = .ok () c' ∧
      ([8, 6].forM fun v => discard (removeOperation v)).run c = .ok () c'' ∧ c'.Agrees c'' := by
  intro c
  have reachable : c.Reachable := (((Reachable.blank 3 0 Binary64.zero).change
    (.addOperation { element := .cx } [0, 1] [])).change
    (.addOperation { element := .cx } [1, 2] [])).change (.addOperation { element := .h } [2] [])
  obtain ⟨c', run⟩ : ∃ c', (removeBlock [6, 8]).run c = .ok () c' := ⟨_, rfl⟩
  obtain ⟨-, each⟩ := removeBlock_removes_each reachable [6, 8]
  obtain ⟨c'', run', agrees⟩ := each c' run [8, 6] (List.Perm.swap 6 8 [])
  exact ⟨c', c'', run, run', agrees⟩

end Circuit

end CircuitDag
