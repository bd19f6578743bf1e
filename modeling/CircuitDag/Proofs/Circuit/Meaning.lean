import CircuitDag.Proofs.Circuit.Compaction
import CircuitDag.Proofs.Circuit.Excision
import CircuitDag.Proofs.Commutation

/-!
# The meaning of a circuit

Operations act in a monoid in which those on disjoint wires commute. The meaning of a circuit is the
product along the topological listing. It does not depend on the listing: any order of the vertices
that agrees with the lines gives the same product.
-/

set_option autoImplicit false

namespace CircuitDag

/-- Actions of operations, given by element, parameters and wires. Operations on disjoint wires
commute, and an element that undoes itself squares to the identity. -/
structure Interpretation (M : Type*) [Monoid M] where
  act : Element → List Param → List WireId → M
  commute : ∀ e ps ws e' ps' ws', List.Disjoint ws ws' → Commute (act e ps ws) (act e' ps' ws')
  square : ∀ e ps ws, e.isInvolution = true → act e ps ws * act e ps ws = 1

namespace Interpretation

variable {M : Type*} [Monoid M]

def record (I : Interpretation M) (r : Record) : M := I.act r.element r.params r.wires

/-- The product of the actions along the topological listing. -/
def meaning (I : Interpretation M) (c : Circuit) : M :=
  (c.topologicalOperations.map fun (_, r) => I.record r).prod

/-- The action of a vertex; anchors do nothing. -/
def vertex (I : Interpretation M) (c : Circuit) (v : VertexId) : M :=
  match c.records.get? v with
  | some r => if r.isAnchor then 1 else I.record r
  | none => 1

variable {I : Interpretation M} {c c' : Circuit} {u v : VertexId} {r s : Record}

theorem vertex_eq (found : c.records.get? v = some r) :
    I.vertex c v = if r.isAnchor then 1 else I.record r := by
  rw [vertex, found]

theorem vertex_congr (left : c.records.get? v = some r) (right : c'.records.get? u = some s)
    (element : s.element = r.element) (params : s.params = r.params)
    (wires : s.wires = r.wires) : I.vertex c' u = I.vertex c v := by
  have anchor : s.isAnchor = r.isAnchor := by rw [Record.isAnchor, element, Record.isAnchor]
  have action : I.record s = I.record r := by rw [record, element, params, wires, record]
  rw [vertex_eq left, vertex_eq right, anchor, action]

theorem meaning_eq_prod_vertex (I : Interpretation M) (c : Circuit) :
    I.meaning c = (c.topologicalVertices.map (I.vertex c)).prod := by
  rw [meaning, Circuit.topologicalOperations, Records.select]
  induction c.topologicalVertices with
  | nil => rfl
  | cons v vs ih =>
      rw [List.filterMap_cons, List.map_cons, List.prod_cons, ← ih]
      cases found : c.records.get? v with
      | none => simp [vertex, found]
      | some r =>
          cases anchor : r.isAnchor <;> simp [vertex_eq found, anchor]

end Interpretation

/-- An order of the vertices on lines that agrees with the lines. -/
structure Linearizes (line : WireId → List VertexId) (order : List VertexId) : Prop where
  nodup : order.Nodup
  mem_iff : ∀ v, v ∈ order ↔ ∃ w, v ∈ line w
  sublist : ∀ w, (line w).Sublist order

section Linearizations

variable {line : WireId → List VertexId} {order : List VertexId}

theorem Linearizes.cut (linear : Linearizes line order) (block : List VertexId) :
    Linearizes (Graph.cutLine line block) (order.filter fun v => !block.contains v) where
  nodup := linear.nodup.filter _
  mem_iff v := by
    simp only [Graph.cutLine, List.mem_filter, linear.mem_iff]
    constructor
    · intro given
      obtain ⟨⟨w, member⟩, kept⟩ := given
      exact ⟨w, member, kept⟩
    · intro given
      obtain ⟨w, member, kept⟩ := given
      exact ⟨⟨w, member⟩, kept⟩
  sublist w := (linear.sublist w).filter _

theorem Linearizes.map (linear : Linearizes line order) (moved : VertexId → VertexId)
    (injective : ∀ u ∈ order, ∀ v ∈ order, moved u = moved v → u = v) :
    Linearizes (fun w => (line w).map moved) (order.map moved) where
  nodup := linear.nodup.map_on injective
  mem_iff v := by
    simp only [List.mem_map, linear.mem_iff]
    constructor
    · intro given
      obtain ⟨u, ⟨w, member⟩, rfl⟩ := given
      exact ⟨w, u, member, rfl⟩
    · intro given
      obtain ⟨w, u, member, rfl⟩ := given
      exact ⟨u, ⟨w, member⟩, rfl⟩
  sublist w := (linear.sublist w).map moved

variable {u v x y : VertexId} {w w' : WireId}

/-- Vertices that directly follow one vertex on two lines are the same if both are on both lines. -/
theorem Linearizes.eq_of_adjacent (linear : Linearizes line order)
    (first : Adjacent (line w) v x) (second : Adjacent (line w') v y) (inSecond : x ∈ line w')
    (inFirst : y ∈ line w) : x = y := by
  have between : ∀ {x y w w'}, Adjacent (line w) v x → Adjacent (line w') v y → x ∈ line w' →
      ¬ Before order x y := by
    intro x y w w' first second inSecond before
    have unique : ∀ w, (line w).Nodup := fun w => linear.nodup.sublist (linear.sublist w)
    have apart : v ≠ x := first.ne (unique w)
    have apart' : x ≠ y := by
      intro same
      subst same
      exact before.asymm linear.nodup before
    have behind : Before order v x := List.Sublist.trans first.before (linear.sublist w)
    exact second.not_between (unique w')
      (behind.of_sublist (linear.sublist w') linear.nodup apart second.mem_left inSecond)
      (before.of_sublist (linear.sublist w') linear.nodup apart' inSecond second.mem_right)
  by_contra different
  have member : x ∈ order := (linear.sublist w).subset first.mem_right
  have member' : y ∈ order := (linear.sublist w').subset second.mem_right
  rcases before_or_before different member member' with before | before
  · exact between first second inSecond before
  · exact between second first inFirst before

/-- Values at vertices that have no line in common commute. -/
def CommuteApart {M : Type*} [Monoid M] (line : WireId → List VertexId) (f : VertexId → M) : Prop :=
  ∀ u v x y, u ∈ line x → v ∈ line y → (∀ w, u ∈ line w → v ∉ line w) → Commute (f u) (f v)

variable {M : Type*} [Monoid M] {f : VertexId → M} {order' : List VertexId}

/-- All orders that agree with the lines give the same product. -/
theorem CommuteApart.prod_eq (commutes : CommuteApart line f) (linear : Linearizes line order)
    (linear' : Linearizes line order') : (order.map f).prod = (order'.map f).prod := by
  refine prod_eq_of_order ?_ ?_
  · refine (List.perm_ext_iff_of_nodup linear.nodup linear'.nodup).mpr fun v => ?_
    rw [linear.mem_iff, linear'.mem_iff]
  · intro a b before after
    obtain ⟨x, left⟩ := (linear.mem_iff a).mp before.mem.1
    obtain ⟨y, right⟩ := (linear.mem_iff b).mp before.mem.2
    refine commutes a b x y left right fun w inA inB => ?_
    have different : a ≠ b := by
      intro same
      obtain rfl := same
      exact before.asymm linear.nodup before
    have here := before.of_sublist (linear.sublist w) linear.nodup different inA inB
    exact after.asymm linear'.nodup (List.Sublist.trans here (linear'.sublist w))

/-- Two vertices that follow each other on all their lines and have the same value, which squares
to one, can be left out. -/
theorem CommuteApart.prod_cut (commutes : CommuteApart line f) (linear : Linearizes line order)
    (member : v ∈ line w) (adjacent : ∀ w, v ∈ line w → Adjacent (line w) v u)
    (same : f u = f v) (square : f v * f v = 1) :
    ((order.filter fun x => !([v, u] : List VertexId).contains x).map f).prod =
      (order.map f).prod := by
  obtain ⟨front, middle, back, shape⟩ : ∃ front middle back,
      order = front ++ v :: middle ++ u :: back := by
    have pair : Before (line w) v u := (adjacent w member).before
    obtain ⟨front, rest, shape, inRest⟩ :=
      before_iff.mp (List.Sublist.trans pair (linear.sublist w))
    obtain ⟨middle, back, rfl⟩ := List.append_of_mem inRest
    exact ⟨front, middle, back, by simp [shape]⟩
  obtain ⟨vFresh, uFresh⟩ := notMem_of_nodup_pair (shape ▸ linear.nodup)
  have apart : ∀ y ∈ front ++ middle ++ back, y ≠ v ∧ y ≠ u := fun y inside =>
    ⟨fun same => vFresh (same ▸ inside), fun same => uFresh (same ▸ inside)⟩
  have remaining : (order.filter fun x => !([v, u] : List VertexId).contains x) =
      front ++ middle ++ back := by
    have rest : (front ++ middle ++ back).filter (fun x => !([v, u] : List VertexId).contains x) =
        front ++ middle ++ back :=
      List.filter_eq_self.mpr fun y inside => by simp [apart y inside]
    rw [shape]
    simpa [List.filter_cons] using rest
  rw [remaining, shape]
  refine (prod_cancel same square fun y inMiddle => ?_).symm
  -- What is between the two in the order is on none of their lines.
  have first : Before order v y := by
    rw [shape]
    exact before_iff.mpr ⟨front, middle ++ u :: back, by simp, by simp [inMiddle]⟩
  have second : Before order y u := by
    obtain ⟨before, behind, rfl⟩ := List.append_of_mem inMiddle
    rw [shape]
    exact before_iff.mpr ⟨front ++ v :: before, behind ++ u :: back, by simp, by simp⟩
  obtain ⟨z, inZ⟩ := (linear.mem_iff y).mp first.mem.2
  refine commutes v y w z member inZ fun w inV inY => ?_
  have next := adjacent w inV
  have distinct := apart y (by simp [inMiddle])
  exact next.not_between (linear.nodup.sublist (linear.sublist w))
    (first.of_sublist (linear.sublist w) linear.nodup (Ne.symm distinct.1) inV inY)
    (second.of_sublist (linear.sublist w) linear.nodup distinct.2 inY next.mem_right)

end Linearizations

namespace Circuit

variable {c c' : Circuit} {line : WireId → List VertexId} {order : List VertexId}
  {u v : VertexId} {r s : Record} {M : Type*} [Monoid M] {I : Interpretation M}

/-- The topological listing has all vertices on lines, in an order that agrees with the lines. -/
theorem Layout.linearizes (layout : c.Layout line) : Linearizes line c.topologicalVertices := by
  have closed := layout.toThreaded.closed
  have acyclic := layout.toThreaded.acyclic layout.orderly
  obtain ⟨unique, members, earlier⟩ :=
    Graph.topologicalOrder_spec closed fun v => !c.records.isRemoved v
  have start : ∀ {t w}, t ∈ line w → (!c.records.isRemoved t) = true := by
    intro t w member
    obtain ⟨r, live, -⟩ := layout.carries member
    simp [live.isRemoved]
  have listed : ∀ {v w}, v ∈ line w → v ∈ c.topologicalVertices := by
    intro v w member
    refine acyclic.mem_topologicalOrder closed ?_ fun s path => ?_
    · rw [layout.numVertices]
      exact layout.lt_size member
    · rcases Relation.ReflTransGen.cases_head path with rfl | ⟨t, joins, -⟩
      · exact start member
      · obtain ⟨x, adjacent⟩ := layout.joins_iff.mp joins
        exact start adjacent.mem_left
  refine ⟨unique, fun v => ⟨fun member => ?_, fun ⟨w, member⟩ => listed member⟩, fun w => ?_⟩
  · obtain ⟨bound, -, accepted⟩ := (members v).mp member
    rw [layout.numVertices] at bound
    obtain ⟨r, found⟩ : ∃ r, c.records.get? v = some r := ⟨_, Array.getElem?_eq_getElem bound⟩
    cases removed : r.removed with
    | false =>
        have live : c.records.Live v r := ⟨found, removed⟩
        obtain ⟨w, inside⟩ := List.exists_mem_of_ne_nil _ (layout.wired v r live).nonempty
        exact ⟨w, layout.covered v w ⟨r, live, inside⟩⟩
    | true =>
        have free : c.graph.inDegree v = 0 := by
          rw [Graph.inDegree, List.length_eq_zero_iff, Graph.edgesInto, List.filter_eq_nil_iff]
          intro e inside leads
          obtain ⟨w, adjacent⟩ := layout.joins_iff.mp ⟨e, inside, rfl, of_decide_eq_true leads⟩
          obtain ⟨s, live, -⟩ := layout.carries adjacent.mem_right
          obtain rfl := Option.some.inj (live.1.symm.trans found)
          cases live.2.symm.trans removed
        have kept := accepted free
        rw [Records.isRemoved_iff.mpr ⟨r, found, removed⟩] at kept
        cases kept
  · refine sublist_of_before unique (fun x first => listed (List.mem_of_head? first)) ?_
    intro a b adjacent
    obtain ⟨front, back, shape⟩ := List.append_of_mem (listed adjacent.mem_right)
    have inFront := earlier front b back shape a (layout.joins_iff.mpr ⟨w, adjacent⟩)
    obtain ⟨left, right, rfl⟩ := List.append_of_mem inFront
    exact before_iff.mpr ⟨left, right ++ b :: back, by simp [shape], by simp⟩

theorem Layout.mem_topologicalOperations (layout : c.Layout line) :
    (v, r) ∈ c.topologicalOperations ↔ c.records.Live v r ∧ r.isAnchor = false := by
  simp only [topologicalOperations, List.mem_filter, Records.mem_select,
    layout.linearizes.mem_iff, Bool.not_eq_true']
  refine and_congr_left fun _ => ?_
  constructor
  · intro given
    obtain ⟨⟨w, member⟩, found⟩ := given
    obtain ⟨s, live, -⟩ := layout.carries member
    obtain rfl := Option.some.inj (found.symm.trans live.1)
    exact live
  · intro live
    obtain ⟨w, member⟩ := List.exists_mem_of_ne_nil _ (layout.wired v r live).nonempty
    exact ⟨⟨w, layout.covered v w ⟨r, live, member⟩⟩, live.1⟩

theorem Layout.commuteApart (layout : c.Layout line) (I : Interpretation M) :
    CommuteApart line (I.vertex c) := by
  intro u v x y left right apart
  obtain ⟨r, live, -⟩ := layout.carries left
  obtain ⟨s, live', -⟩ := layout.carries right
  rw [Interpretation.vertex_eq live.1, Interpretation.vertex_eq live'.1]
  split
  · exact Commute.one_left _
  · split
    · exact Commute.one_right _
    · refine I.commute _ _ _ _ _ _ fun w inLeft inRight => ?_
      exact apart w (layout.covered u w ⟨r, live, inLeft⟩) (layout.covered v w ⟨s, live', inRight⟩)

/-- Every order that agrees with the lines gives the meaning. -/
theorem Layout.meaning_eq (layout : c.Layout line) (linear : Linearizes line order) :
    I.meaning c = (order.map (I.vertex c)).prod := by
  rw [Interpretation.meaning_eq_prod_vertex]
  exact (layout.commuteApart I).prod_eq layout.linearizes linear

/-! ## Compaction -/

theorem Layout.meaning_compacted (layout : c.Layout line) (I : Interpretation M) :
    I.meaning c.compacted = I.meaning c := by
  have listing := layout.linearizes
  have live : ∀ v ∈ c.topologicalVertices, ∃ r, c.records.Live v r := by
    intro v member
    obtain ⟨w, inside⟩ := (listing.mem_iff v).mp member
    exact layout.toThreaded.live inside
  have moved := listing.map c.newNumber (by
    intro u left v right same
    obtain ⟨r, live'⟩ := live u left
    obtain ⟨s, live''⟩ := live v right
    exact newNumber_injective live' live'' same)
  rw [layout.compact.meaning_eq moved, Interpretation.meaning_eq_prod_vertex, List.map_map]
  congr 1
  refine List.map_congr_left fun v member => ?_
  obtain ⟨r, live⟩ := live v member
  exact Interpretation.vertex_congr live.1 (compacted_live live).1 rfl rfl rfl

/-! ## Cutting out a pair -/

/-- Taking out two equal operations that square to the identity and follow each other on all their
wires keeps the meaning. -/
theorem Layout.meaning_cut (layout : c.Layout line) (left : c.records.Live v r)
    (right : c.records.Live u s) (element : s.element = r.element) (params : s.params = r.params)
    (wires : s.wires = r.wires) (involution : r.element.isInvolution = true)
    (adjacent : ∀ w ∈ r.wires, Adjacent (line w) v u)
    (layout' : c'.Layout (Graph.cutLine line [v, u]))
    (kept : ∀ x, x ≠ v → x ≠ u → I.vertex c' x = I.vertex c x) :
    I.meaning c' = I.meaning c := by
  have listing := layout.linearizes
  obtain ⟨w, member⟩ := List.exists_mem_of_ne_nil _ (layout.wired v r left).nonempty
  have onLine : v ∈ line w := (adjacent w member).mem_left
  have inLine : ∀ w, v ∈ line w → Adjacent (line w) v u := by
    intro w member
    obtain ⟨r', live, inside⟩ := layout.carries member
    exact adjacent w (left.unique live ▸ inside)
  have same : I.vertex c u = I.vertex c v :=
    Interpretation.vertex_congr left.1 right.1 element params wires
  have square : I.vertex c v * I.vertex c v = 1 := by
    rw [Interpretation.vertex_eq left.1]
    split
    · exact mul_one 1
    · exact I.square _ _ _ involution
  rw [layout'.meaning_eq (listing.cut [v, u]), Interpretation.meaning_eq_prod_vertex,
    ← (layout.commuteApart I).prod_cut listing onLine inLine same square]
  congr 1
  refine List.map_congr_left fun x inside => ?_
  have apart : x ≠ v ∧ x ≠ u := by simpa using (List.mem_filter.mp inside).2
  exact kept x apart.1 apart.2

end Circuit

end CircuitDag
