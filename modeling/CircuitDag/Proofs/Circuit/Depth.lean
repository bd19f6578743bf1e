import CircuitDag.Proofs.Circuit.Labels

/-!
# Depth

Every operation comes one level above the highest of its wires. Behind all operations, the highest
level of a wire is the depth of the circuit: `Charted` relates the levels to the lengths of paths
that are computed along the topological listing. Independent neighbours may be swapped without a
change of levels, so the depth depends only on what stands on each wire.
-/

set_option autoImplicit false

namespace CircuitDag

/-! ## Levels -/

/-- The highest level of some wires. -/
def highest (levels : WireId → Nat) (wires : List WireId) : Nat :=
  (wires.map levels).foldr max 0

/-- An operation takes its wires one level above the highest of them. -/
def Label.raise (levels : WireId → Nat) (label : Label) (w : WireId) : Nat :=
  if w ∈ label.wires then highest levels label.wires + 1 else levels w

/-- The levels of the wires behind some operations. -/
def levelsBehind (labels : List Label) : WireId → Nat := labels.foldl Label.raise fun _ => 0

variable {levels levels' : WireId → Nat} {wires : List WireId} {labels labels' : List Label}

theorem highest_cons (levels : WireId → Nat) (w : WireId) (wires : List WireId) :
    highest levels (w :: wires) = max (levels w) (highest levels wires) := rfl

theorem highest_eq_iff {n : Nat} : highest levels wires = n ↔
    (∀ w ∈ wires, levels w ≤ n) ∧ (n = 0 ∨ ∃ w ∈ wires, levels w = n) := by
  induction wires generalizing n with
  | nil => simp [highest, eq_comm]
  | cons w wires ih =>
      obtain ⟨bounded, reached⟩ := ih.mp rfl
      rw [highest_cons, List.forall_mem_cons]
      constructor
      · rintro rfl
        refine ⟨⟨Nat.le_max_left .., fun x member =>
          Nat.le_trans (bounded x member) (Nat.le_max_right ..)⟩, ?_⟩
        rcases Nat.le_total (levels w) (highest levels wires) with above | below
        · rw [Nat.max_eq_right above]
          exact reached.imp_right fun ⟨x, member, same⟩ => ⟨x, List.mem_cons_of_mem w member, same⟩
        · exact .inr ⟨w, List.mem_cons_self, (Nat.max_eq_left below).symm⟩
      · rintro ⟨⟨first, others⟩, attained⟩
        have rest : highest levels wires ≤ n := by
          rcases reached with none | ⟨x, member, same⟩
          · exact none ▸ Nat.zero_le n
          · exact same ▸ others x member
        refine Nat.le_antisymm (Nat.max_le.mpr ⟨first, rest⟩) ?_
        rcases attained with rfl | ⟨x, member, rfl⟩
        · exact Nat.zero_le _
        · rcases List.mem_cons.mp member with rfl | member
          · exact Nat.le_max_left ..
          · exact Nat.le_trans (bounded x member) (Nat.le_max_right ..)

theorem highest_congr (same : ∀ w ∈ wires, levels' w = levels w) :
    highest levels' wires = highest levels wires := by
  rw [highest, highest, List.map_congr_left same]

/-- Operations without a common wire raise the wires in any order. -/
theorem raise_comm {a b : Label} (apart : a.wires.Disjoint b.wires) (levels : WireId → Nat) :
    b.raise (a.raise levels) = a.raise (b.raise levels) := by
  have leftAlone : highest (a.raise levels) b.wires = highest levels b.wires :=
    highest_congr fun w member => if_neg fun shared => apart shared member
  have rightAlone : highest (b.raise levels) a.wires = highest levels a.wires :=
    highest_congr fun w member => if_neg fun shared => apart member shared
  funext w
  simp only [Label.raise] at leftAlone rightAlone ⊢
  rw [leftAlone, rightAlone]
  by_cases inA : w ∈ a.wires
  · have notInB : w ∉ b.wires := fun shared => apart inA shared
    rw [if_neg notInB, if_pos inA, if_pos inA]
  · rw [if_neg inA, if_neg inA]

theorem Rearranged.levelsBehind_eq (rearranged : Rearranged Label.wires labels labels') :
    levelsBehind labels = levelsBehind labels' := by
  induction rearranged with
  | refl => rfl
  | tail _ swap ih =>
      obtain ⟨front, a, b, back, apart⟩ := swap
      rw [ih, levelsBehind, levelsBehind, List.foldl_append, List.foldl_append]
      simp only [List.foldl_cons]
      rw [raise_comm apart]

namespace Circuit

variable {c : Circuit} {line : WireId → List VertexId} {side : Side} {v x : VertexId} {w : WireId}
  {r : Record} {done : List VertexId} {paths : PathLengths}

/-! ## Lengths of paths -/

/-- The number of operations on the longest path to a vertex, as far as it is computed. -/
def PathLengths.to (paths : PathLengths) (v : VertexId) : Nat := paths.length.getD v 0

theorem lastMax?_spec (weight : VertexId → Nat) (vs : List VertexId) :
    match lastMax? weight vs with
    | none => vs = []
    | some v => v ∈ vs ∧ ∀ u ∈ vs, weight u ≤ weight v := by
  induction vs with
  | nil => rfl
  | cons v vs ih =>
      rw [lastMax?]
      cases rest : lastMax? weight vs with
      | none =>
          rw [rest] at ih
          subst ih
          exact ⟨List.mem_cons_self, fun u member => by rw [List.mem_singleton.mp member]⟩
      | some w =>
          rw [rest] at ih
          obtain ⟨member, largest⟩ := ih
          by_cases less : weight v ≤ weight w
          · simp only [if_pos less]
            exact ⟨List.mem_cons_of_mem v member, List.forall_mem_cons.mpr ⟨less, largest⟩⟩
          · simp only [if_neg less]
            refine ⟨List.mem_cons_self, List.forall_mem_cons.mpr ⟨Nat.le_refl _, fun u other => ?_⟩⟩
            exact Nat.le_trans (largest u other) (Nat.le_of_lt (Nat.lt_of_not_le less))

/-- The path to a vertex goes on from an earlier vertex, or begins at the vertex. -/
def Arrives (c : Circuit) (paths : PathLengths) (earlier : List VertexId) (v : VertexId) : Prop :=
  match paths.previous[v]?.join with
  | none => paths.to v = c.pathWeight v
  | some u => u ∈ earlier ∧ paths.to v = paths.to u + c.pathWeight v

/-- The paths to the vertices of a list are computed, and their lengths are the levels of the wires
behind these vertices. -/
structure Charted (c : Circuit) (line : WireId → List VertexId) (done : List VertexId)
    (paths : PathLengths) : Prop where
  length_size : paths.length.size = c.records.size
  previous_size : paths.previous.size = c.records.size
  arrives : ∀ front v back, done = front ++ v :: back → c.Arrives paths front v
  levels : ∀ w, ∃ front back, line w = front ++ back ∧ (∀ x ∈ front, x ∈ done) ∧
    (∀ x ∈ back, x ∉ done) ∧
    levelsBehind (done.filterMap c.label?) w = (front.getLast?.map paths.to).getD 0

theorem to_extendPath (bound : v < paths.length.size) :
    (c.extendPath paths v).to x =
      if v = x then highest paths.to (c.neighbors .incoming v) + c.pathWeight v
      else paths.to x := by
  have spec := lastMax?_spec paths.to (c.neighbors .incoming v)
  rw [PathLengths.to, extendPath, Array.getD_eq_getD_getElem?, Array.getElem?_setIfInBounds]
  split
  · rw [Option.getD_some]
    congr 1
    split
    · next u best =>
        have best : lastMax? paths.to (c.neighbors .incoming v) = some u := best
        rw [best] at spec
        exact (highest_eq_iff.mpr ⟨spec.2, .inr ⟨u, spec.1, rfl⟩⟩).symm
    · next best =>
        have best : lastMax? paths.to (c.neighbors .incoming v) = none := best
        rw [best] at spec
        rw [spec]
        rfl
  · exact (Array.getD_eq_getD_getElem? ..).symm

theorem previous_extendPath (bound : v < paths.previous.size) :
    (c.extendPath paths v).previous[x]?.join =
      if v = x then lastMax? paths.to (c.neighbors .incoming v) else paths.previous[x]?.join := by
  rw [extendPath, Array.getElem?_setIfInBounds]
  split <;> rfl

theorem charted_nil (c : Circuit) (line : WireId → List VertexId) :
    c.Charted line [] { length := Array.replicate c.records.size 0
                        previous := Array.replicate c.records.size none } where
  length_size := Array.size_replicate
  previous_size := Array.size_replicate
  arrives front v back shape := by simp at shape
  levels w := ⟨[], line w, rfl, nofun, nofun, rfl⟩

theorem pathWeight_eq (found : c.records.get? v = some r) :
    c.pathWeight v = if r.isAnchor then 0 else 1 := by
  rw [pathWeight, found]

/-- An anchor is on one wire. -/
theorem Seated.wires_of_isAnchor (seated : c.Seated line) (live : c.records.Live v r)
    (anchor : r.isAnchor = true) : ∃ w, r.wires = [w] := by
  obtain ⟨side, element⟩ := exists_endElement anchor
  obtain ⟨w, -, place⟩ := seated.terminal side v r live element
  obtain ⟨s, live', -, wires⟩ := seated.anchored side w v place
  exact ⟨w, live.unique live' ▸ wires⟩

section Step

variable (layout : c.Layout line) (charted : c.Charted line done paths)
  (live : c.records.Live v r) (fresh : v ∉ done)
  (before : ∀ w a, Adjacent (line w) a v → a ∈ done)
include layout charted live fresh before

/-- A vertex all of whose predecessors are charted comes right behind them on each of its wires. -/
theorem Charted.next (member : w ∈ r.wires) : ∃ front back, line w = front ++ v :: back ∧
    (∀ x ∈ front, x ∈ done) ∧ (∀ x ∈ back, x ∉ done) ∧
    levelsBehind (done.filterMap c.label?) w = (front.getLast?.map paths.to).getD 0 := by
  obtain ⟨front, back, shape, early, late, level⟩ := charted.levels w
  have stands : v ∈ front ++ back := shape ▸ layout.covered v w ⟨r, live, member⟩
  have inBack : v ∈ back := (List.mem_append.mp stands).resolve_left fun inFront =>
    fresh (early v inFront)
  obtain ⟨middle, back, rfl⟩ := List.append_of_mem inBack
  rcases List.eq_nil_or_concat middle with rfl | ⟨middle, a, rfl⟩
  · exact ⟨front, back, shape, early, fun x inside => late x (List.mem_cons_of_mem v inside), level⟩
  · have adjacent : Adjacent (line w) a v := ⟨front ++ middle, back, by simp [shape]⟩
    exact absurd (before w a adjacent) (late a (by simp))

/-- The longest path to the predecessors of a vertex is the highest level of its wires. -/
theorem Charted.highest_eq : highest paths.to (c.neighbors .incoming v) =
    highest (levelsBehind (done.filterMap c.label?)) r.wires := by
  have neighbors : ∀ a, a ∈ c.neighbors .incoming v ↔ ∃ w ∈ r.wires, Adjacent (line w) a v := by
    intro a
    rw [Circuit.neighbors, live.1]
    exact layout.mem_neighbors_iff live
  obtain ⟨bounded, reached⟩ := highest_eq_iff.mp (rfl : highest paths.to _ = _)
  refine (highest_eq_iff.mpr ⟨fun w member => ?_, ?_⟩).symm
  · obtain ⟨front, back, shape, -, -, level⟩ :=
      charted.next layout live fresh before member
    rw [level]
    rcases List.eq_nil_or_concat front with rfl | ⟨front, a, rfl⟩
    · exact Nat.zero_le _
    · rw [List.concat_eq_append, List.getLast?_concat]
      exact bounded a ((neighbors a).mpr ⟨w, member, front, back, by simp [shape]⟩)
  · refine reached.imp_right fun ⟨a, inside, same⟩ => ?_
    obtain ⟨w, member, adjacent⟩ := (neighbors a).mp inside
    obtain ⟨front, back, shape, -, -, level⟩ :=
      charted.next layout live fresh before member
    have unique := (layout.strung w).nodup
    refine ⟨w, member, ?_⟩
    rw [level, ← same]
    rcases List.eq_nil_or_concat front with rfl | ⟨front, b, rfl⟩
    · exact absurd (by rw [shape]; rfl) (adjacent.head?_ne unique)
    · have next : Adjacent (line w) b v := ⟨front, back, by simp [shape]⟩
      rw [List.concat_eq_append, List.getLast?_concat, next.left_unique adjacent unique]
      rfl

theorem Charted.to_extendPath : (c.extendPath paths v).to v =
    highest (levelsBehind (done.filterMap c.label?)) r.wires + c.pathWeight v := by
  have bound : v < paths.length.size := charted.length_size ▸ live.lt_size
  rw [Circuit.to_extendPath bound, if_pos rfl, charted.highest_eq layout live fresh before]

theorem Charted.level_snoc (w : WireId) :
    levelsBehind ((done ++ [v]).filterMap c.label?) w =
      if w ∈ r.wires then (c.extendPath paths v).to v
      else levelsBehind (done.filterMap c.label?) w := by
  have length := charted.to_extendPath layout live fresh before
  rw [pathWeight_eq live.1] at length
  rw [length, List.filterMap_append, levelsBehind, List.foldl_append, ← levelsBehind,
    List.filterMap_cons, List.filterMap_nil, label?_eq live.1]
  cases anchor : r.isAnchor with
  | false => rfl
  | true =>
      obtain ⟨x, wires⟩ := layout.wires_of_isAnchor live anchor
      simp only [↓reduceIte, List.foldl_nil, wires, List.mem_singleton]
      split
      · next same => exact same ▸ (Nat.max_eq_left (Nat.zero_le _)).symm
      · rfl

omit layout before in
theorem Charted.to_kept (member : x ∈ done) : (c.extendPath paths v).to x = paths.to x := by
  have bound : v < paths.length.size := charted.length_size ▸ live.lt_size
  rw [Circuit.to_extendPath bound, if_neg]
  intro same
  exact fresh (same ▸ member)

omit layout before in
theorem Charted.previous_kept (member : x ∈ done) :
    (c.extendPath paths v).previous[x]?.join = paths.previous[x]?.join := by
  have bound : v < paths.previous.size := charted.previous_size ▸ live.lt_size
  rw [previous_extendPath bound, if_neg]
  intro same
  exact fresh (same ▸ member)

omit layout fresh before in
theorem Charted.previous_next :
    (c.extendPath paths v).previous[v]?.join = lastMax? paths.to (c.neighbors .incoming v) := by
  have bound : v < paths.previous.size := charted.previous_size ▸ live.lt_size
  rw [previous_extendPath bound, if_pos rfl]

omit layout before in
theorem Charted.arrives_kept {front back : List VertexId} (shape : done = front ++ x :: back) :
    c.Arrives (c.extendPath paths v) front x := by
  have arrived := charted.arrives front x back shape
  have member : x ∈ done := by simp [shape]
  rw [Arrives] at arrived ⊢
  rw [charted.previous_kept live fresh member, charted.to_kept live fresh member]
  cases previous : paths.previous[x]?.join with
  | none =>
      rw [previous] at arrived
      exact arrived
  | some u =>
      rw [previous] at arrived
      obtain ⟨inFront, length⟩ := arrived
      have early : u ∈ done := shape ▸ List.mem_append_left _ inFront
      exact ⟨inFront, by rw [charted.to_kept live fresh early, length]⟩

/-- The path to the next vertex goes on from the predecessor with the longest path. -/
theorem Charted.arrives_next : c.Arrives (c.extendPath paths v) done v := by
  have lengthBound : v < paths.length.size := charted.length_size ▸ live.lt_size
  have spec := lastMax?_spec paths.to (c.neighbors .incoming v)
  rw [Arrives, charted.previous_next live]
  cases best : lastMax? paths.to (c.neighbors .incoming v) with
  | none =>
      rw [best] at spec
      simp only [Circuit.to_extendPath lengthBound, ↓reduceIte, spec]
      exact Nat.zero_add _
  | some u =>
      rw [best] at spec
      obtain ⟨inside, largest⟩ := spec
      have member := inside
      rw [Circuit.neighbors, live.1] at member
      obtain ⟨w, -, adjacent⟩ := (layout.mem_neighbors_iff live).mp member
      have early := before w u adjacent
      have longest := highest_eq_iff.mpr ⟨largest, .inr ⟨u, inside, rfl⟩⟩
      refine ⟨early, ?_⟩
      rw [charted.to_kept live fresh early, Circuit.to_extendPath lengthBound, if_pos rfl, longest]

/-- The next vertex is the last one that is charted on its wires, and nothing changes elsewhere. -/
theorem Charted.levels_next (w : WireId) : ∃ front back, line w = front ++ back ∧
    (∀ x ∈ front, x ∈ done ++ [v]) ∧ (∀ x ∈ back, x ∉ done ++ [v]) ∧
    levelsBehind ((done ++ [v]).filterMap c.label?) w =
      (front.getLast?.map (c.extendPath paths v).to).getD 0 := by
  have late' : ∀ {back : List VertexId}, (∀ x ∈ back, x ∉ done) → v ∉ back →
      ∀ x ∈ back, x ∉ done ++ [v] := by
    intro back late elsewhere x inside charted'
    rcases List.mem_append.mp charted' with old | same
    · exact late x inside old
    · exact elsewhere (List.mem_singleton.mp same ▸ inside)
  rw [charted.level_snoc layout live fresh before w]
  by_cases member : w ∈ r.wires
  · obtain ⟨front, back, shape, early, late, -⟩ := charted.next layout live fresh before member
    have unique := shape ▸ (layout.strung w).nodup
    have behind : v ∉ back := (List.nodup_cons.mp (List.nodup_append.mp unique).2.1).1
    refine ⟨front ++ [v], back, by simp [shape], fun x inside => ?_, late' late behind, ?_⟩
    · rcases List.mem_append.mp inside with inFront | same
      · exact List.mem_append_left _ (early x inFront)
      · exact List.mem_append_right _ same
    · rw [if_pos member, List.getLast?_concat]
      rfl
  · obtain ⟨front, back, shape, early, late, level⟩ := charted.levels w
    have elsewhere : v ∉ line w := by
      intro stands
      obtain ⟨s, live', carried⟩ := layout.carries stands
      exact member (live.unique live' ▸ carried)
    have behind : v ∉ back := fun inside => elsewhere (shape ▸ List.mem_append_right _ inside)
    refine ⟨front, back, shape, fun x inside => List.mem_append_left _ (early x inside),
      late' late behind, ?_⟩
    rw [if_neg member, level]
    cases last : front.getLast? with
    | none => rfl
    | some a =>
        have old := early a (List.mem_of_getLast? last)
        exact (charted.to_kept live fresh old).symm

theorem Charted.extend : c.Charted line (done ++ [v]) (c.extendPath paths v) where
  length_size := by
    rw [extendPath, Array.size_setIfInBounds]
    exact charted.length_size
  previous_size := by
    rw [extendPath, Array.size_setIfInBounds]
    exact charted.previous_size
  arrives front x back shape := by
    rcases List.eq_nil_or_concat back with rfl | ⟨back, y, rfl⟩
    · obtain ⟨rfl, same⟩ := List.append_inj' shape rfl
      obtain rfl := List.singleton_injective same
      exact charted.arrives_next layout live fresh before
    · rw [List.concat_eq_append, ← List.cons_append, ← List.append_assoc] at shape
      obtain ⟨shape, -⟩ := List.append_inj' shape rfl
      exact charted.arrives_kept live fresh shape
  levels := charted.levels_next layout live fresh before

end Step

/-- What holds of no vertices at the start and is kept by every vertex whose predecessors are listed
before it holds of the whole listing at the end. -/
theorem Layout.along_listing (layout : c.Layout line) {holds : List VertexId → PathLengths → Prop}
    (start : holds [] ⟨Array.replicate c.records.size 0, Array.replicate c.records.size none⟩)
    (step : ∀ done v r paths, c.records.Live v r → v ∉ done →
      (∀ w a, Adjacent (line w) a v → a ∈ done) → holds done paths →
      holds (done ++ [v]) (c.extendPath paths v)) :
    holds c.topologicalVertices c.pathLengths := by
  have linear := layout.linearizes
  have earlier := (Graph.topologicalOrder_spec layout.toThreaded.closed
    fun v => !c.records.isRemoved v).2.2
  have run : ∀ done rest, c.topologicalVertices = done ++ rest → ∀ paths, holds done paths →
      holds c.topologicalVertices (rest.foldl c.extendPath paths) := by
    intro done rest
    induction rest generalizing done with
    | nil =>
        intro shape paths so
        rwa [shape, List.append_nil]
    | cons v rest ih =>
        intro shape paths so
        have unique := shape ▸ linear.nodup
        have fresh : v ∉ done := fun old => (List.nodup_append.mp unique).2.2 v old v (by simp) rfl
        obtain ⟨w, member⟩ := (linear.mem_iff v).mp (by simp [shape])
        obtain ⟨r, live, -⟩ := layout.carries member
        have before : ∀ w a, Adjacent (line w) a v → a ∈ done := fun w a adjacent =>
          earlier done v rest shape a (layout.joins_iff.mpr ⟨w, adjacent⟩)
        exact ih (done ++ [v]) (by simp [shape]) _ (step done v r paths live fresh before so)
  exact run [] c.topologicalVertices rfl _ start

/-- Along the topological listing all paths are computed. -/
theorem Layout.charted (layout : c.Layout line) :
    c.Charted line c.topologicalVertices c.pathLengths :=
  layout.along_listing (charted_nil c line) fun _ _ _ _ live fresh before charted =>
    charted.extend layout live fresh before

/-! ## The longest path -/

/-- The operations among some vertices. -/
def numOperationsOf (c : Circuit) (vs : List VertexId) : Nat :=
  (vs.filter fun v => c.pathWeight v ≠ 0).length

theorem numOperationsOf_cons (c : Circuit) (v : VertexId) (vs : List VertexId) :
    c.numOperationsOf (v :: vs) = c.pathWeight v + c.numOperationsOf vs := by
  have cases : c.pathWeight v = 0 ∨ c.pathWeight v = 1 := by
    rw [pathWeight]
    cases c.records.get? v with
    | none => exact .inl rfl
    | some r => cases r.isAnchor <;> simp
  rcases cases with none | one
  · rw [numOperationsOf, numOperationsOf, List.filter_cons_of_neg (by simp [none]), none,
      Nat.zero_add]
  · rw [numOperationsOf, numOperationsOf, List.filter_cons_of_pos (by simp [one]), one,
      List.length_cons, Nat.add_comm]

/-- Tracing a path back collects as many operations as its length tells. -/
theorem numOperationsOf_tracePath
    (arrives : ∀ front v back, done = front ++ v :: back → c.Arrives paths front v) (fuel : Nat)
    {front back : List VertexId} (shape : done = front ++ v :: back) (enough : front.length < fuel)
    (rest : List VertexId) :
    c.numOperationsOf (tracePath paths.previous fuel v rest) + c.pathWeight v =
      c.numOperationsOf rest + paths.to v := by
  induction fuel generalizing v front back rest with
  | zero => exact absurd enough (Nat.not_lt_zero _)
  | succ fuel ih =>
      have arrived := arrives front v back shape
      rw [Arrives] at arrived
      rw [tracePath]
      cases previous : paths.previous[v]?.join with
      | none =>
          rw [previous] at arrived
          rw [arrived]
      | some u =>
          rw [previous] at arrived
          obtain ⟨early, length⟩ := arrived
          obtain ⟨front, middle, rfl⟩ := List.append_of_mem early
          have shorter : front.length < fuel := by
            simp only [List.length_append, List.length_cons] at enough
            omega
          have split : done = front ++ u :: (middle ++ v :: back) := by simp [shape]
          have traced := ih split shorter (u :: rest)
          rw [numOperationsOf_cons] at traced
          simp only
          omega

/-- The path to an output is as long as the level of its wire. -/
theorem Layout.level_of_output (layout : c.Layout line) {o : VertexId}
    (output : c.outputs[w]? = some o) :
    o ∈ line w ∧ levelsBehind c.labels w = c.pathLengths.to o := by
  have tip : (line w).getLast? = some o := (layout.tips .outgoing w).trans output
  obtain ⟨front, back, shape, -, late, same⟩ := layout.charted.levels w
  have none : back = [] := by
    refine List.eq_nil_iff_forall_not_mem.mpr fun x inside => late x inside ?_
    exact (layout.linearizes.mem_iff x).mpr ⟨w, shape ▸ List.mem_append_right _ inside⟩
  rw [none, List.append_nil] at shape
  rw [labels_eq_filterMap]
  exact ⟨List.mem_of_getLast? tip, same.trans (by rw [← shape, tip]; rfl)⟩

/-- A vertex on a line is listed with fewer vertices before it than there are records. -/
theorem Layout.exists_listed (layout : c.Layout line) (member : v ∈ line w) :
    ∃ front back, c.topologicalVertices = front ++ v :: back ∧ front.length < c.records.size := by
  have linear := layout.linearizes
  obtain ⟨front, back, shape⟩ := List.append_of_mem ((linear.mem_iff v).mpr ⟨w, member⟩)
  have bounded : c.topologicalVertices.length ≤ (List.range c.records.size).length := by
    refine (List.subperm_of_subset linear.nodup fun x listed => ?_).length_le
    obtain ⟨y, stands⟩ := (linear.mem_iff x).mp listed
    exact List.mem_range.mpr (layout.lt_size stands)
  rw [shape, List.length_append, List.length_cons, List.length_range] at bounded
  exact ⟨front, back, shape, by omega⟩

/-- Tracing back from a vertex collects as many operations as the path to it has. -/
theorem Layout.numOperationsOf_tracePath (layout : c.Layout line) (member : v ∈ line w) :
    c.numOperationsOf (tracePath c.pathLengths.previous c.records.size v [v]) =
      c.pathLengths.to v := by
  obtain ⟨front, back, shape, enough⟩ := layout.exists_listed member
  have traced := Circuit.numOperationsOf_tracePath layout.charted.arrives c.records.size shape
    enough [v]
  rw [numOperationsOf_cons] at traced
  have none : c.numOperationsOf [] = 0 := rfl
  omega

/-- The longest path is traced back from an output to which no other output has a longer path. -/
theorem Layout.longestPath_cases (layout : c.Layout line) :
    (c.numWires = 0 ∧ c.longestPath = []) ∨ ∃ (w : WireId) (last : VertexId),
      c.outputs[w]? = some last ∧
      c.longestPath = tracePath c.pathLengths.previous c.records.size last [last] ∧
      ∀ (x : WireId) o, c.outputs[x]? = some o →
        c.pathLengths.to o ≤ c.pathLengths.to last := by
  have spec := lastMax?_spec c.pathLengths.to c.outputs.toList
  have path : c.longestPath = match lastMax? c.pathLengths.to c.outputs.toList with
    | none => []
    | some last => tracePath c.pathLengths.previous c.records.size last [last] := rfl
  cases best : lastMax? c.pathLengths.to c.outputs.toList with
  | none =>
      rw [best] at spec path
      refine .inl ⟨?_, path⟩
      rw [← layout.sizes .outgoing]
      exact Array.size_eq_zero_iff.mpr (Array.toList_eq_nil_iff.mp spec)
  | some last =>
      rw [best] at spec path
      obtain ⟨inside, largest⟩ := spec
      obtain ⟨w, found⟩ := List.getElem?_of_mem inside
      rw [Array.getElem?_toList] at found
      exact .inr ⟨w, last, found, path, fun x o output =>
        largest o (Array.mem_toList_iff.mpr (Array.mem_of_getElem? output))⟩

/-- The depth is the highest level behind all operations. -/
theorem Layout.depth_eq (layout : c.Layout line) :
    c.depth = highest (levelsBehind c.labels) (List.range c.numWires) := by
  have depth : c.depth = c.numOperationsOf c.longestPath := rfl
  rw [depth]
  rcases layout.longestPath_cases with ⟨none, path⟩ | ⟨w, last, found, path, largest⟩
  · rw [none, path]
    rfl
  · obtain ⟨member, reached⟩ := layout.level_of_output found
    rw [path]
    refine (layout.numOperationsOf_tracePath member).trans
      (highest_eq_iff.mpr ⟨fun x listed => ?_, .inr ⟨w, ?_, reached⟩⟩).symm
    · obtain ⟨o, output⟩ := layout.exists_output (List.mem_range.mp listed)
      rw [(layout.level_of_output output).2]
      exact largest x o output
    · have bound := (Array.getElem?_eq_some_iff.mp found).1
      exact List.mem_range.mpr (layout.sizes .outgoing ▸ bound)

end Circuit

end CircuitDag
