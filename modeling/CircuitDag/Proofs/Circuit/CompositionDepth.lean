import CircuitDag.Proofs.Circuit.Appending

/-!
# Depth of compositions

Operations behind other ones start from the levels that those leave. Higher levels at the start
raise the levels behind the operations by no more than the difference, so a composition is as deep
as each of its parts and not deeper than both together.
-/

set_option autoImplicit false

namespace CircuitDag

variable {levels levels' : WireId → Nat} {wires : List WireId} {label : Label}
  {labels labels' : List Label} {w : WireId} {n : Nat}

/-! ## Levels behind levels -/

/-- The levels of the wires behind some operations, from given levels on. -/
def levelsFrom (levels : WireId → Nat) (labels : List Label) : WireId → Nat :=
  labels.foldl Label.raise levels

theorem levelsFrom_append (levels : WireId → Nat) (labels labels' : List Label) :
    levelsFrom levels (labels ++ labels') = levelsFrom (levelsFrom levels labels) labels' :=
  List.foldl_append

theorem levelsBehind_append (labels labels' : List Label) :
    levelsBehind (labels ++ labels') = levelsFrom (levelsBehind labels) labels' :=
  levelsFrom_append ..

theorem le_highest (member : w ∈ wires) : levels w ≤ highest levels wires :=
  (highest_eq_iff.mp rfl).1 w member

theorem highest_le (bounded : ∀ w ∈ wires, levels w ≤ n) : highest levels wires ≤ n := by
  rcases (highest_eq_iff.mp (rfl : highest levels wires = _)).2 with none | ⟨w, member, same⟩
  · exact none ▸ Nat.zero_le n
  · exact same ▸ bounded w member

theorem highest_le_add (bounded : ∀ w, levels w ≤ levels' w + n) (wires : List WireId) :
    highest levels wires ≤ highest levels' wires + n :=
  highest_le fun w member => Nat.le_trans (bounded w) (Nat.add_le_add_right (le_highest member) n)

theorem le_raise (levels : WireId → Nat) (label : Label) (w : WireId) :
    levels w ≤ label.raise levels w := by
  rw [Label.raise]
  split
  · next member => exact Nat.le_succ_of_le (le_highest member)
  · exact Nat.le_refl _

theorem raise_le_add (bounded : ∀ w, levels w ≤ levels' w + n) (label : Label) (w : WireId) :
    label.raise levels w ≤ label.raise levels' w + n := by
  rw [Label.raise, Label.raise]
  split
  · have higher := highest_le_add bounded label.wires
    omega
  · exact bounded w

theorem le_levelsFrom (levels : WireId → Nat) (labels : List Label) (w : WireId) :
    levels w ≤ levelsFrom levels labels w := by
  induction labels generalizing levels with
  | nil => exact Nat.le_refl _
  | cons label labels ih => exact Nat.le_trans (le_raise levels label w) (ih (label.raise levels))

/-- What the wires are ahead at the start, they are at most ahead at the end. -/
theorem levelsFrom_le_add (bounded : ∀ w, levels w ≤ levels' w + n) (labels : List Label)
    (w : WireId) : levelsFrom levels labels w ≤ levelsFrom levels' labels w + n := by
  induction labels generalizing levels levels' with
  | nil => exact bounded w
  | cons label labels ih => exact ih (raise_le_add bounded label)

/-- Wires without operations stay at their levels. -/
theorem levelsFrom_of_notMem (free : ∀ label ∈ labels, w ∉ label.wires) :
    levelsFrom levels labels w = levels w := by
  induction labels generalizing levels with
  | nil => rfl
  | cons label labels ih =>
      rw [List.forall_mem_cons] at free
      exact (ih free.2).trans (if_neg free.1)

/-- On other wires operations raise the levels as they do on their own. -/
theorem levelsFrom_rename {f : WireId → WireId} {bound : Nat}
    (injective : ∀ w < bound, ∀ x < bound, f w = f x → w = x)
    (bounded : ∀ label ∈ labels, ∀ w ∈ label.wires, w < bound)
    (agree : ∀ w < bound, levels (f w) = levels' w) (below : w < bound) :
    levelsFrom levels (labels.map (Label.rename f)) (f w) = levelsFrom levels' labels w := by
  induction labels generalizing levels levels' with
  | nil => exact agree w below
  | cons label labels ih =>
      rw [List.forall_mem_cons] at bounded
      obtain ⟨inside, others⟩ := bounded
      refine ih others fun x bound => ?_
      have carried : f x ∈ label.wires.map f ↔ x ∈ label.wires := by
        refine ⟨fun given => ?_, List.mem_map_of_mem⟩
        obtain ⟨y, member, same⟩ := List.mem_map.mp given
        exact injective y (inside y member) x bound same ▸ member
      have top : highest levels (label.wires.map f) = highest levels' label.wires := by
        rw [highest, highest, List.map_map]
        exact congrArg _ (List.map_congr_left fun y member => agree y (inside y member))
      simp only [Label.raise, Label.rename, carried, top, agree x bound]

namespace Circuit

variable {c c' other : Circuit} {order : List WireId} {line : WireId → List VertexId}

/-! ## Composition -/

theorem compose_eq_ok_iff {order? : Option (List WireId)} :
    c.compose other order? = .ok c' ↔ (append other order?).run c = .ok () c' := by
  rw [compose]
  cases (append other order?).run c <;> simp

/-- A composition has the operations of the other circuit behind those of the first one, on the
wires that the order gives them. -/
theorem Reachable.rearranged_append (reachable : c.Reachable) (reachable' : other.Reachable)
    {order? : Option (List WireId)} (run : (append other order?).run c = .ok () c') :
    c.Matches other (order?.getD (c.defaultOrder other)) ∧ c'.Reachable ∧
      Rearranged Label.wires c'.labels (c.labels ++
        other.labels.map (Label.rename (mapWire (order?.getD (c.defaultOrder other))))) := by
  have reached : c'.Reachable := by
    have changed := reachable.change (.append other order?)
    rwa [Change.after, Edit.after_eq_of_run run] at changed
  obtain ⟨line, layout⟩ := reachable.laidOut
  obtain ⟨matched, b, extended, rfl⟩ := reachable.extended_append reachable' run
  rw [← labels_appendedRecords]
  exact ⟨matched, reached, extended.rearranged layout⟩

/-- No wire is higher than the depth behind all operations. -/
theorem Layout.level_le_depth (layout : c.Layout line) (w : WireId) :
    levelsBehind c.labels w ≤ c.depth := by
  rw [layout.depth_eq]
  by_cases bound : w < c.numWires
  · exact le_highest (List.mem_range.mpr bound)
  · have free : ∀ label ∈ c.labels, w ∉ label.wires := fun label member carried =>
      bound ((layout.label_wires label member).2 w carried)
    exact (levelsFrom_of_notMem free).trans_le (Nat.zero_le _)

/-- The operations of a circuit are as deep on mapped wires as on their own. -/
theorem Matches.levelsBehind_rename (matched : c.Matches other order)
    (layout : other.Layout line) :
    (∀ i < other.numWires, levelsBehind (other.labels.map (Label.rename (mapWire order)))
      (mapWire order i) = levelsBehind other.labels i) ∧
    ∀ w, levelsBehind (other.labels.map (Label.rename (mapWire order))) w ≤ other.depth := by
  have bounded := fun label member => (layout.label_wires label member).2
  have mapped : ∀ i < other.numWires,
      levelsBehind (other.labels.map (Label.rename (mapWire order))) (mapWire order i) =
        levelsBehind other.labels i := fun i bound =>
    levelsFrom_rename (fun w left x right => matched.mapWire_injective left right) bounded
      (fun _ _ => rfl) bound
  refine ⟨mapped, fun w => ?_⟩
  by_cases image : ∃ i < other.numWires, mapWire order i = w
  · obtain ⟨i, bound, rfl⟩ := image
    exact (mapped i bound).trans_le (layout.level_le_depth i)
  · have free : ∀ label ∈ other.labels.map (Label.rename (mapWire order)), w ∉ label.wires := by
      intro label member carried
      obtain ⟨label, listed, rfl⟩ := List.mem_map.mp member
      obtain ⟨i, inside, same⟩ := List.mem_map.mp carried
      exact image ⟨i, bounded label listed i inside, same⟩
    exact (levelsFrom_of_notMem free).trans_le (Nat.zero_le _)

/-- Operations that come behind those of a circuit make it as deep as they are, and deeper by no
more than that. -/
theorem Matches.depth_bounds (matched : c.Matches other order) (layout : c.Layout line)
    {line' line'' : WireId → List VertexId} (layout' : other.Layout line')
    (layout'' : c'.Layout line'') (rearranged : Rearranged Label.wires c'.labels
      (c.labels ++ other.labels.map (Label.rename (mapWire order)))) :
    max c.depth other.depth ≤ c'.depth ∧ c'.depth ≤ c.depth + other.depth := by
  let appended := other.labels.map (Label.rename (mapWire order))
  obtain ⟨mapped, bounded⟩ := matched.levelsBehind_rename layout'
  have levels : levelsBehind c'.labels = levelsFrom (levelsBehind c.labels) appended :=
    rearranged.levelsBehind_eq.trans (levelsBehind_append ..)
  have within := layout''.level_le_depth
  rw [levels] at within
  refine ⟨Nat.max_le.mpr ⟨?_, ?_⟩, ?_⟩
  · rw [layout.depth_eq]
    exact highest_le fun w _ => Nat.le_trans (le_levelsFrom ..) (within w)
  · rw [layout'.depth_eq]
    refine highest_le fun i listed => ?_
    have fromZero : ∀ w : WireId, 0 ≤ levelsBehind c.labels w + 0 := fun _ => Nat.zero_le _
    rw [← mapped i (List.mem_range.mp listed)]
    exact Nat.le_trans (levelsFrom_le_add fromZero appended _) (within (mapWire order i))
  · rw [layout''.depth_eq, levels]
    refine highest_le fun w _ => ?_
    have ahead : ∀ w, levelsBehind c.labels w ≤ 0 + c.depth := fun w =>
      (layout.level_le_depth w).trans_eq (Nat.zero_add _).symm
    calc levelsFrom (levelsBehind c.labels) appended w
        ≤ levelsBehind appended w + c.depth := levelsFrom_le_add ahead appended w
      _ ≤ other.depth + c.depth := Nat.add_le_add_right (bounded w) _
      _ = c.depth + other.depth := Nat.add_comm ..

/-- A composition succeeds exactly if the order maps the wires of the other circuit to distinct
wires of the same kinds. It is as deep as each of the two circuits, and at most as deep as one after
the other. -/
theorem depth_compose (reachable : c.Reachable) (reachable' : other.Reachable)
    (order? : Option (List WireId)) :
    ((∃ composed, c.compose other order? = .ok composed) ↔
      c.Matches other (order?.getD (c.defaultOrder other))) ∧
    ∀ composed, c.compose other order? = .ok composed →
      max c.depth other.depth ≤ composed.depth ∧ composed.depth ≤ c.depth + other.depth := by
  refine ⟨⟨fun given => ?_, fun matched => ?_⟩, fun composed accepted => ?_⟩
  · obtain ⟨composed, accepted⟩ := given
    exact (reachable.rearranged_append reachable' (compose_eq_ok_iff.mp accepted)).1
  · obtain ⟨composed, run⟩ := append_succeeds reachable' (validateOrder_eq_ok_iff.mpr matched)
    exact ⟨composed, compose_eq_ok_iff.mpr run⟩
  · obtain ⟨matched, reached, rearranged⟩ :=
      reachable.rearranged_append reachable' (compose_eq_ok_iff.mp accepted)
    obtain ⟨line, layout⟩ := reachable.laidOut
    obtain ⟨line', layout'⟩ := reachable'.laidOut
    obtain ⟨line'', layout''⟩ := reached.laidOut
    exact matched.depth_bounds layout layout' layout'' rearranged

/-- Two Hadamard gates side by side and behind each other. -/
theorem depth_compose_hadamards :
    let c := Change.after (blank 2 0) (.addOperation { element := .h } [0] [])
    (∃ composed, c.compose c (some [1, 0]) = .ok composed ∧ 1 ≤ composed.depth ∧
      composed.depth ≤ 2) ∧
    (c.compose c (some [1, 0])).toOption.map depth = some 1 ∧
    (c.compose c).toOption.map depth = some 2 := by
  intro c
  have reachable : c.Reachable :=
    (Reachable.blank 2 0 Binary64.zero).change (.addOperation { element := .h } [0] [])
  obtain ⟨accepted, bounds⟩ := depth_compose reachable reachable (some [1, 0])
  obtain ⟨composed, result⟩ := accepted.mpr (validateOrder_eq_ok_iff.mp rfl)
  have one : c.depth = 1 := by decide +kernel
  obtain ⟨lower, upper⟩ := bounds composed result
  rw [one] at lower upper
  exact ⟨⟨composed, result, lower, upper⟩, by decide +kernel, by decide +kernel⟩

end Circuit

end CircuitDag
