import CircuitDag.Error
import CircuitDag.Proofs.Graph.Segments

/-!
# Edges by slot

Slots change under removals: the edge in the last slot takes the place of the removed one, and the
lists of edges at a vertex must follow it. Here the edges at a vertex are told by their slots, as
they are when they are looked up. Finding an edge and then removing what is in its slot removes this
edge, and taking the first edge at a vertex again and again clears the vertex.
-/

set_option autoImplicit false

namespace CircuitDag

theorem map_erase_of_forall {α β : Type} [DecidableEq α] [DecidableEq β] (f : α → β) {l : List α}
    {x : α} (only : ∀ z ∈ l, f z = f x → z = x) : (l.erase x).map f = (l.map f).erase (f x) := by
  induction l with
  | nil => rfl
  | cons z l ih =>
      rw [List.forall_mem_cons] at only
      obtain ⟨here, others⟩ := only
      by_cases same : z = x
      · subst same
        simp
      · have different : f z ≠ f x := fun image => same (here image)
        rw [List.erase_cons_tail (by simpa using same), List.map_cons, ih others, List.map_cons,
          List.erase_cons_tail (by simpa using different)]

/-- The vertex that has an edge on a side. -/
def Edge.holder (side : Side) (e : Edge) : VertexId :=
  match side with
  | .incoming => e.target
  | .outgoing => e.source

namespace Graph

variable {g g' : Graph} {side : Side} {e x : Edge} {s t v : VertexId} {w : WireId} {i j : Nat}

/-- The edges of a vertex on a side, the newest first. -/
def edgesAt (g : Graph) : Side → VertexId → List Edge
  | .incoming, v => g.edgesInto v
  | .outgoing, v => g.edgesOutOf v

theorem edgesAt_eq (g : Graph) (side : Side) (v : VertexId) :
    g.edgesAt side v = g.edges.filter fun e => e.holder side = v := by
  cases side <;> rfl

theorem edgesAt_sublist (g : Graph) (side : Side) (v : VertexId) :
    (g.edgesAt side v).Sublist g.edges := by
  rw [edgesAt_eq]
  exact List.filter_sublist

def slotOf (g : Graph) (e : Edge) : Nat := g.edgesBySlot.idxOf e

/-- The slots of the edges of a vertex on a side, the newest first. -/
def slotsAt (g : Graph) (side : Side) (v : VertexId) : List Nat := (g.edgesAt side v).map g.slotOf

/-! ## Edges and their slots -/

theorem Slotted.nodup_edges (slotted : g.Slotted) : g.edges.Nodup := slotted.nodup.of_map

theorem Slotted.nodup_slots (slotted : g.Slotted) : g.slots.Nodup :=
  slotted.perm.nodup_iff.mpr slotted.nodup

theorem Slotted.nodup_edgesBySlot (slotted : g.Slotted) : g.edgesBySlot.Nodup :=
  slotted.edgesBySlot_perm.nodup_iff.mpr slotted.nodup_edges

theorem Slotted.length_edgesBySlot (slotted : g.Slotted) : g.edgesBySlot.length = g.numEdges :=
  slotted.edgesBySlot_perm.length_eq

theorem Slotted.mem_edgesBySlot (slotted : g.Slotted) : e ∈ g.edgesBySlot ↔ e ∈ g.edges :=
  slotted.edgesBySlot_perm.mem_iff

theorem Slotted.getElem?_slotOf (slotted : g.Slotted) (member : e ∈ g.edges) :
    g.edgesBySlot[g.slotOf e]? = some e :=
  List.getElem?_idxOf (slotted.mem_edgesBySlot.mpr member)

theorem Slotted.slotOf_eq_iff (slotted : g.Slotted) (member : e ∈ g.edges) :
    g.slotOf e = i ↔ g.edgesBySlot[i]? = some e := by
  have found := slotted.getElem?_slotOf member
  constructor
  · rintro rfl
    exact found
  · intro position
    obtain ⟨bound, -⟩ := List.getElem?_eq_some_iff.mp position
    exact ((List.getElem?_inj bound slotted.nodup_edgesBySlot).mp (position.trans found.symm)).symm

theorem Slotted.slotOf_lt (slotted : g.Slotted) (member : e ∈ g.edges) :
    g.slotOf e < g.numEdges := by
  rw [← slotted.length_edgesBySlot]
  exact List.idxOf_lt_length_iff.mpr (slotted.mem_edgesBySlot.mpr member)

theorem Slotted.slotOf_inj (slotted : g.Slotted) (left : e ∈ g.edges) (right : x ∈ g.edges)
    (same : g.slotOf e = g.slotOf x) : e = x := by
  have found := (slotted.slotOf_eq_iff left).mp same
  exact Option.some.inj (found.symm.trans (slotted.getElem?_slotOf right))

/-- The slots hold the stamps of the edges that are met in them. -/
theorem Slotted.map_stamp_edgesBySlot (slotted : g.Slotted) :
    g.edgesBySlot.map Edge.stamp = g.slots := by
  have every : ∀ stamps : List Nat, stamps ⊆ g.edges.map Edge.stamp →
      (stamps.filterMap fun stamp => g.edges.find? (·.stamp = stamp)).map Edge.stamp = stamps := by
    intro stamps included
    induction stamps with
    | nil => rfl
    | cons stamp stamps ih =>
        obtain ⟨e, member, rfl⟩ := List.mem_map.mp (included List.mem_cons_self)
        have found := find?_of_nodup_map Edge.stamp slotted.nodup member
        simp only [List.filterMap_cons, found, List.map_cons]
        rw [ih fun stamp inside => included (List.mem_cons_of_mem _ inside)]
  exact every g.slots slotted.perm.subset

theorem Slotted.getElem?_edgesBySlot (slotted : g.Slotted) :
    g.edgesBySlot[i]? = some e ↔ e ∈ g.edges ∧ g.slots[i]? = some e.stamp := by
  rw [← slotted.map_stamp_edgesBySlot, List.getElem?_map, Option.map_eq_some_iff]
  constructor
  · intro found
    exact ⟨slotted.mem_edgesBySlot.mp (List.mem_of_getElem? found), e, found, rfl⟩
  · rintro ⟨member, x, found, same⟩
    have inside := slotted.mem_edgesBySlot.mp (List.mem_of_getElem? found)
    rwa [← List.inj_on_of_nodup_map slotted.nodup inside member same]

/-! ## Removing what is in a slot -/

theorem getElem?_replace_of_nodup {l : List Nat} {old new : Nat} (unique : l.Nodup)
    (position : l[i]? = some old) (j : Nat) :
    (l.replace old new)[j]? = if j = i then some new else l[j]? := by
  have bound := (List.getElem?_eq_some_iff.mp position).1
  rw [List.getElem?_replace]
  by_cases same : j = i
  · subst same
    have fresh : old ∉ l.take j := by
      intro earlier
      obtain ⟨k, inside, value⟩ := List.mem_take_iff_getElem.mp earlier
      have again : l[k]? = some old := List.getElem?_eq_some_iff.mpr ⟨by omega, value⟩
      have clash := (List.getElem?_inj bound unique).mp (position.trans again.symm)
      omega
    rw [if_pos (by simp [position]), if_neg fresh, if_pos rfl]
  · have other : l[j]? ≠ some old := fun again =>
      same ((List.getElem?_inj bound unique).mp (position.trans again.symm)).symm
    rw [if_neg (by simpa using other), if_neg same]

theorem getElem?_swapRemove {stamp : Nat} {slots : List Nat} (unique : slots.Nodup)
    (position : slots[i]? = some stamp) (j : Nat) : (swapRemove stamp slots)[j]? =
      if j < slots.length - 1 then slots[if j = i then slots.length - 1 else j]? else none := by
  rcases List.eq_nil_or_concat slots with rfl | ⟨init, last, rfl⟩
  · cases position
  rw [List.concat_eq_append] at position unique ⊢
  have bound := (List.getElem?_eq_some_iff.mp position).1
  have final : (init ++ [last])[init.length]? = some last := by simp
  simp only [swapRemove, List.getLast?_append, List.getLast?_singleton, Option.some_or,
    List.dropLast_concat, List.length_append, List.length_singleton, Nat.add_sub_cancel]
  by_cases ends : last = stamp
  · subst ends
    obtain rfl := (List.getElem?_inj bound unique).mp (position.trans final.symm)
    rw [if_pos rfl]
    split
    · next inside => rw [if_neg (Nat.ne_of_lt inside), List.getElem?_append_left inside]
    · next outside => exact List.getElem?_eq_none (Nat.le_of_not_lt outside)
  · rw [if_neg ends]
    have inside : i < init.length := by
      rcases Nat.lt_or_ge i init.length with inside | outside
      · exact inside
      · rw [List.length_append, List.length_singleton] at bound
        obtain rfl : i = init.length := by omega
        exact absurd (Option.some.inj (final.symm.trans position)) ends
    rw [List.getElem?_append_left inside] at position
    rw [getElem?_replace_of_nodup (List.nodup_append.mp unique).1 position]
    split
    · next same =>
        subst same
        rw [if_pos inside, final]
    · split
      · next earlier => rw [List.getElem?_append_left earlier]
      · next outside => exact List.getElem?_eq_none (Nat.le_of_not_lt outside)

/-- What removing the edge in a slot does to a graph: the edge in the last slot takes the place of
the removed one, and the lists of edges at the vertices follow. -/
structure SwapRemoved (g : Graph) (i : Nat) (g' : Graph) : Prop where
  numVertices : g'.numVertices = g.numVertices
  numEdges : g'.numEdges + 1 = g.numEdges
  edge : ∀ j, g'.edgesBySlot[j]? =
    if j < g'.numEdges then g.edgesBySlot[if j = i then g'.numEdges else j]? else none
  listed : ∀ side v, g'.slotsAt side v =
    ((g.slotsAt side v).erase i).map fun j => if j = g'.numEdges then i else j

theorem numEdges_eraseEdge (member : e ∈ g.edges) :
    (g.eraseEdge e).numEdges + 1 = g.numEdges := by
  have positive := List.length_pos_of_mem member
  have shorter := List.length_erase_of_mem member
  change (g.edges.erase e).length + 1 = g.edges.length
  omega

theorem Slotted.getElem?_eraseEdge (slotted : g.Slotted) (member : e ∈ g.edges) (j : Nat) :
    (g.eraseEdge e).edgesBySlot[j]? = if j < (g.eraseEdge e).numEdges then
      g.edgesBySlot[if j = g.slotOf e then (g.eraseEdge e).numEdges else j]? else none := by
  have position : g.slots[g.slotOf e]? = some e.stamp :=
    (slotted.getElem?_edgesBySlot.mp (slotted.getElem?_slotOf member)).2
  have bound := (List.getElem?_eq_some_iff.mp position).1
  have size : g.slots.length - 1 = (g.eraseEdge e).numEdges := by
    have fewer := numEdges_eraseEdge member
    have same : g.slots.length = g.numEdges := slotted.perm.length_eq.trans (List.length_map ..)
    omega
  refine Option.ext fun x => ?_
  rw [(slotted.eraseEdge member).getElem?_edgesBySlot]
  change x ∈ g.edges.erase e ∧ (swapRemove e.stamp g.slots)[j]? = some x.stamp ↔ _
  rw [getElem?_swapRemove slotted.nodup_slots position, size, slotted.nodup_edges.mem_erase_iff]
  split
  · next inside =>
      rw [slotted.getElem?_edgesBySlot]
      constructor
      · rintro ⟨⟨-, listed⟩, found⟩
        exact ⟨listed, found⟩
      · rintro ⟨listed, found⟩
        refine ⟨⟨?_, listed⟩, found⟩
        rintro rfl
        have clash := (List.getElem?_inj bound slotted.nodup_slots).mp (position.trans found.symm)
        split at clash <;> omega
  · simp

/-- The edge that was in the last slot has moved, and the others are where they were. -/
theorem Slotted.slotOf_eraseEdge (slotted : g.Slotted) (member : e ∈ g.edges)
    (other : x ∈ g.edges.erase e) : (g.eraseEdge e).slotOf x =
      if g.slotOf x = (g.eraseEdge e).numEdges then g.slotOf e else g.slotOf x := by
  obtain ⟨different, listed⟩ := slotted.nodup_edges.mem_erase_iff.mp other
  have apart : g.slotOf x ≠ g.slotOf e := fun same =>
    different (slotted.slotOf_inj listed member same)
  have fewer := numEdges_eraseEdge member
  have bound := slotted.slotOf_lt listed
  have bound' := slotted.slotOf_lt member
  rw [(slotted.eraseEdge member).slotOf_eq_iff other, slotted.getElem?_eraseEdge member]
  split
  · next last =>
      rw [if_pos (by omega), if_pos rfl, ← last]
      exact slotted.getElem?_slotOf listed
  · next earlier =>
      rw [if_pos (by omega)]
      exact slotted.getElem?_slotOf listed

theorem edgesAt_eraseEdge (g : Graph) (e : Edge) (side : Side) (v : VertexId) :
    (g.eraseEdge e).edgesAt side v = (g.edgesAt side v).erase e := by
  rw [edgesAt_eq, edgesAt_eq]
  exact List.erase_filter.symm

theorem Slotted.swapRemoved (slotted : g.Slotted) (member : e ∈ g.edges) :
    g.SwapRemoved (g.slotOf e) (g.eraseEdge e) where
  numVertices := rfl
  numEdges := numEdges_eraseEdge member
  edge := slotted.getElem?_eraseEdge member
  listed side v := by
    have own : ∀ x ∈ g.edgesAt side v, g.slotOf x = g.slotOf e → x = e := fun x inside same =>
      slotted.slotOf_inj ((g.edgesAt_sublist side v).subset inside) member same
    rw [slotsAt, edgesAt_eraseEdge, slotsAt, ← map_erase_of_forall g.slotOf own, List.map_map]
    refine List.map_congr_left fun x inside => ?_
    exact slotted.slotOf_eraseEdge member (((g.edgesAt_sublist side v).erase e).subset inside)

/-! ## Removals by slot -/

/-- Removes the edge in a slot, if there is one. -/
def removeAt (g : Graph) (i : Nat) : Graph :=
  match g.edgesBySlot[i]? with
  | some e => g.eraseEdge e
  | none => g

theorem Slotted.removeAt_slotOf (slotted : g.Slotted) (member : e ∈ g.edges) :
    g.removeAt (g.slotOf e) = g.eraseEdge e := by
  rw [removeAt, slotted.getElem?_slotOf member]

theorem Slotted.swapRemoved_removeAt (slotted : g.Slotted) (bound : i < g.numEdges) :
    g.SwapRemoved i (g.removeAt i) := by
  obtain ⟨e, found⟩ : ∃ e, g.edgesBySlot[i]? = some e :=
    ⟨_, List.getElem?_eq_getElem (slotted.length_edgesBySlot.symm ▸ bound)⟩
  have member := slotted.mem_edgesBySlot.mp (List.mem_of_getElem? found)
  obtain rfl := (slotted.slotOf_eq_iff member).mpr found
  rw [slotted.removeAt_slotOf member]
  exact slotted.swapRemoved member

/-- The slot of the newest edge between two vertices on a wire, looked up among the edges out of the
first one. -/
def findSlot? (g : Graph) (s t : VertexId) (w : WireId) : Option Nat :=
  (g.slotsAt .outgoing s).find? fun i =>
    g.edgesBySlot[i]?.any fun e => e.target = t && e.wire = w

/-- Removes the edge in the slot that is found. The answer tells whether there was one. -/
def removeFound (g : Graph) (s t : VertexId) (w : WireId) : Bool × Graph :=
  match g.findSlot? s t w with
  | some i => (g.edgesBySlot[i]?.isSome, g.removeAt i)
  | none => (false, g)

theorem Slotted.findSlot?_eq (slotted : g.Slotted) (s t : VertexId) (w : WireId) :
    g.findSlot? s t w = (g.findEdge? s t w).map g.slotOf := by
  rw [findSlot?, slotsAt, List.find?_map, findEdge?]
  congr 1
  rw [← List.head?_filter, ← List.head?_filter, edgesAt_eq, List.filter_filter]
  congr 1
  refine List.filter_congr fun e member => ?_
  rw [Function.comp_apply, slotted.getElem?_slotOf member, Option.any_some, Bool.and_comm,
    ← Bool.and_assoc]
  rfl

theorem Slotted.removeFound_eq (slotted : g.Slotted) (s t : VertexId) (w : WireId) :
    g.removeFound s t w = (g.hasEdge s t w, g.removeEdge s t w) := by
  rw [removeFound, slotted.findSlot?_eq, hasEdge, Graph.removeEdge]
  cases found : g.findEdge? s t w with
  | none => rfl
  | some e =>
      have member := List.mem_of_find?_eq_some found
      simp only [Option.map_some]
      rw [slotted.getElem?_slotOf member, slotted.removeAt_slotOf member]

/-- As long as a vertex has an edge on a side, the first one is removed. -/
inductive Clears (side : Side) (v : VertexId) : Graph → Graph → Prop where
  | done {g : Graph} (none : g.slotsAt side v = []) : Clears side v g g
  | take {g g' : Graph} {i : Nat} {rest : List Nat} (first : g.slotsAt side v = i :: rest)
      (later : Clears side v (g.removeAt i) g') : Clears side v g g'

theorem Clears.unique {g₁ g₂ : Graph} (first : Clears side v g g₁) (second : Clears side v g g₂) :
    g₁ = g₂ := by
  induction first with
  | done none =>
      cases second with
      | done => rfl
      | take more _ => cases none.symm.trans more
  | take more _ ih =>
      cases second with
      | done none => cases none.symm.trans more
      | take more' later =>
          obtain ⟨rfl, -⟩ := List.cons.inj (more.symm.trans more')
          exact ih later

/-- The loop comes to its end, with the edges on this side removed one after the other. -/
theorem Slotted.clears (slotted : g.Slotted) (side : Side) (v : VertexId) :
    Clears side v g ((g.edgesAt side v).foldl Graph.eraseEdge g) := by
  generalize shape : g.edgesAt side v = es
  induction es generalizing g with
  | nil => exact .done (by rw [slotsAt, shape, List.map_nil])
  | cons e es ih =>
      have member : e ∈ g.edges :=
        (g.edgesAt_sublist side v).subset (shape ▸ List.mem_cons_self)
      refine .take (by rw [slotsAt, shape, List.map_cons]) ?_
      rw [slotted.removeAt_slotOf member]
      refine ih (slotted.eraseEdge member) ?_
      rw [edgesAt_eraseEdge, shape, List.erase_cons_head]

/-- The loop over the edges into a vertex and then the one over the edges out of it. -/
def ClearsVertex (v : VertexId) (g g' : Graph) : Prop :=
  ∃ inner, Clears .incoming v g inner ∧ Clears .outgoing v inner g'

theorem Slotted.clearsVertex_iff (slotted : g.Slotted) :
    ClearsVertex v g g' ↔ g' = g.clearVertex v := by
  have first := slotted.clears .incoming v
  have between : ((g.edgesAt .incoming v).foldl Graph.eraseEdge g).Slotted :=
    slotted.foldl_eraseEdge (g.edgesAt_sublist .incoming v)
  have second := between.clears .outgoing v
  constructor
  · rintro ⟨inner, left, right⟩
    obtain rfl := left.unique first
    exact right.unique second
  · rintro rfl
    exact ⟨_, first, second⟩

end Graph

end CircuitDag
