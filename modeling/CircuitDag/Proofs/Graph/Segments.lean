import CircuitDag.Graph
import CircuitDag.Proofs.Adjacent
import Mathlib.Data.List.Perm.Subperm

/-!
# Edges as wire segments

What the updates of a graph do to its edges, read as triples of source, target and wire, and when
these triples are the neighbours on a family of wires.
-/

set_option autoImplicit false

namespace CircuitDag

def Edge.segment (e : Edge) : VertexId × VertexId × WireId := (e.source, e.target, e.wire)

section Lists

variable {α β : Type}

theorem find?_of_nodup_map [DecidableEq β] (f : α → β) {l : List α} {x : α}
    (unique : (l.map f).Nodup) (member : x ∈ l) :
    l.find? (fun z => decide (f z = f x)) = some x := by
  cases lookup : l.find? (fun z => decide (f z = f x)) with
  | none => simpa using List.find?_eq_none.mp lookup x member
  | some z =>
      have same : f z = f x := by simpa using List.find?_some lookup
      rw [List.inj_on_of_nodup_map unique (List.mem_of_find?_eq_some lookup) member same]

variable [BEq α] [LawfulBEq α]

theorem map_erase_of_find? [BEq β] [LawfulBEq β] [DecidableEq β] (f : α → β) (y : β)
    {l : List α} {x : α} (found : l.find? (fun z => decide (f z = y)) = some x) :
    (l.erase x).map f = (l.map f).erase y := by
  induction l with
  | nil => simp at found
  | cons z l ih =>
      by_cases image : f z = y
      · simp only [List.find?_cons, image, decide_true, Option.some.injEq] at found
        subst found
        simp [image]
      · simp only [List.find?_cons, image, decide_false] at found
        have different : z ≠ x := by
          intro same
          obtain rfl := same
          simpa [image] using List.find?_some found
        rw [List.erase_cons_tail (by simpa using different), List.map_cons, ih found,
          List.map_cons, List.erase_cons_tail (by simpa using image)]

theorem foldl_erase_cons {a : α} (l : List α) {removed : List α} (fresh : a ∉ removed) :
    removed.foldl List.erase (a :: l) = a :: removed.foldl List.erase l := by
  induction removed generalizing l with
  | nil => rfl
  | cons x removed ih =>
      rw [List.mem_cons, not_or] at fresh
      rw [List.foldl_cons, List.erase_cons_tail (by simpa using fresh.1), ih _ fresh.2,
        List.foldl_cons]

theorem foldl_erase_filter (l : List α) (p : α → Bool) :
    (l.filter p).foldl List.erase l = l.filter fun x => !p x := by
  induction l with
  | nil => rfl
  | cons x l ih =>
      cases property : p x with
      | true => simp [property, ih]
      | false =>
          have fresh : x ∉ l.filter p := by simp [property]
          simp [property, foldl_erase_cons l fresh, ih]

theorem replace_perm {l : List α} {old new : α} (member : old ∈ l) :
    (l.replace old new).Perm (new :: l.erase old) := by
  induction l with
  | nil => simp at member
  | cons x l ih =>
      by_cases same : x = old
      · simp [same]
      · have rest : old ∈ l := by
          rcases List.mem_cons.mp member with equal | rest
          · exact absurd equal.symm same
          · exact rest
        have apart : (old == x) = false := by simpa using Ne.symm same
        rw [List.replace_cons, apart, List.erase_cons_tail (by simpa using same)]
        exact ((ih rest).cons x).trans (List.Perm.swap new x _)

end Lists

namespace Graph

variable {g : Graph} {line : WireId → List VertexId} {s t v : VertexId} {w : WireId}

def segments (g : Graph) : List (VertexId × VertexId × WireId) := g.edges.map Edge.segment

@[simp] theorem segments_addVertex (g : Graph) : g.addVertex.segments = g.segments := rfl

@[simp] theorem segments_addEdge (g : Graph) (s t : VertexId) (w : WireId) :
    (g.addEdge s t w).segments = (s, t, w) :: g.segments := rfl

@[simp] theorem numVertices_addEdge (g : Graph) (s t : VertexId) (w : WireId) :
    (g.addEdge s t w).numVertices = g.numVertices := rfl

theorem findEdge?_eq (g : Graph) (s t : VertexId) (w : WireId) :
    g.findEdge? s t w = g.edges.find? fun e => decide (e.segment = (s, t, w)) := by
  unfold findEdge?
  congr 1
  funext e
  simp [Edge.segment, Bool.and_assoc]

theorem hasEdge_iff : g.hasEdge s t w = true ↔ (s, t, w) ∈ g.segments := by
  simp [hasEdge, findEdge?_eq, segments, List.find?_isSome]

@[simp] theorem segments_removeEdge (g : Graph) (s t : VertexId) (w : WireId) :
    (g.removeEdge s t w).segments = g.segments.erase (s, t, w) := by
  unfold removeEdge
  rw [findEdge?_eq]
  split
  · next e found => exact map_erase_of_find? Edge.segment (s, t, w) found
  · next missing =>
      have absent : (s, t, w) ∉ g.segments := by
        simp only [segments, List.mem_map, not_exists, not_and]
        intro e member
        simpa using List.find?_eq_none.mp missing e member
      exact (List.erase_of_not_mem absent).symm

@[simp] theorem numVertices_removeEdge (g : Graph) (s t : VertexId) (w : WireId) :
    (g.removeEdge s t w).numVertices = g.numVertices := by
  unfold removeEdge
  split <;> rfl

theorem edges_removeEdge_sublist (g : Graph) (s t : VertexId) (w : WireId) :
    (g.removeEdge s t w).edges.Sublist g.edges := by
  unfold removeEdge
  split
  · exact List.erase_sublist
  · exact List.Sublist.refl _

theorem foldl_eraseEdge (es : List Edge) (g : Graph) :
    (es.foldl eraseEdge g).edges = es.foldl List.erase g.edges ∧
      (es.foldl eraseEdge g).numVertices = g.numVertices := by
  induction es generalizing g with
  | nil => exact ⟨rfl, rfl⟩
  | cons e es ih => exact ih (g.eraseEdge e)

theorem edges_clearVertex (g : Graph) (v : VertexId) :
    (g.clearVertex v).edges = g.edges.filter fun e => e.source ≠ v ∧ e.target ≠ v := by
  have inner : ((g.edgesInto v).foldl eraseEdge g).edges =
      g.edges.filter fun e => !decide (e.target = v) := by
    rw [(foldl_eraseEdge _ _).1]
    exact foldl_erase_filter g.edges _
  unfold clearVertex
  rw [(foldl_eraseEdge _ _).1, edgesOutOf, foldl_erase_filter, inner, List.filter_filter]
  congr 1
  funext e
  by_cases source : e.source = v <;> by_cases target : e.target = v <;> simp [source, target]

theorem edges_clearVertex_sublist (g : Graph) (v : VertexId) :
    (g.clearVertex v).edges.Sublist g.edges := by
  rw [edges_clearVertex]
  exact List.filter_sublist

@[simp] theorem numVertices_clearVertex (g : Graph) (v : VertexId) :
    (g.clearVertex v).numVertices = g.numVertices := by
  simp [clearVertex, (foldl_eraseEdge _ _).2]

theorem segments_clearVertex (g : Graph) (v : VertexId) :
    (g.clearVertex v).segments = g.segments.filter fun x => x.1 ≠ v ∧ x.2.1 ≠ v := by
  rw [segments, edges_clearVertex, segments, List.filter_map]
  rfl

/-- Clearing vertices one after the other leaves the edges between other vertices. -/
theorem segments_foldl_clearVertex (block : List VertexId) (g : Graph) :
    (block.foldl clearVertex g).segments =
      g.segments.filter fun x => x.1 ∉ block ∧ x.2.1 ∉ block := by
  induction block generalizing g with
  | nil => simp
  | cons v block ih =>
      rw [List.foldl_cons, ih, segments_clearVertex, List.filter_filter]
      congr 1
      funext x
      simp only [List.mem_cons, not_or]
      by_cases source : x.1 = v <;> by_cases target : x.2.1 = v <;> simp [source, target]

@[simp] theorem numVertices_foldl_clearVertex (block : List VertexId) (g : Graph) :
    (block.foldl clearVertex g).numVertices = g.numVertices := by
  induction block generalizing g with
  | nil => rfl
  | cons v block ih => rw [List.foldl_cons, ih, numVertices_clearVertex]

/-! ## Graphs that trace wires -/

/-- The graph has one edge for each two neighbours on a wire, and no others. -/
structure Traces (g : Graph) (line : WireId → List VertexId) : Prop where
  nodup : g.segments.Nodup
  mem_iff : ∀ s t w, (s, t, w) ∈ g.segments ↔ Adjacent (line w) s t

theorem Traces.addEdge (traces : g.Traces line) {line' : WireId → List VertexId}
    (fresh : ¬ Adjacent (line w) s t)
    (extends_ : ∀ a b x, Adjacent (line' x) a b ↔ (a, b, x) = (s, t, w) ∨ Adjacent (line x) a b) :
    (g.addEdge s t w).Traces line' where
  nodup := by
    rw [segments_addEdge, List.nodup_cons, traces.mem_iff]
    exact ⟨fresh, traces.nodup⟩
  mem_iff a b x := by
    rw [segments_addEdge, List.mem_cons, traces.mem_iff, extends_]

/-- The lines with the vertices of a list taken out. -/
def cutLine (line : WireId → List VertexId) (block : List VertexId) (w : WireId) :
    List VertexId := (line w).filter fun v => !block.contains v

/-! ## Slots -/

/-- The slots hold the stamps of the edges, which are all different. -/
structure Slotted (g : Graph) : Prop where
  nodup : (g.edges.map Edge.stamp).Nodup
  perm : g.slots.Perm (g.edges.map Edge.stamp)
  bounded : ∀ e ∈ g.edges, e.stamp < g.nextStamp

theorem slotted_empty (numVertices : Nat) : ({ numVertices } : Graph).Slotted :=
  ⟨by simp, by simp, by simp⟩

theorem Slotted.addVertex (slotted : g.Slotted) : g.addVertex.Slotted :=
  ⟨slotted.nodup, slotted.perm, slotted.bounded⟩

theorem Slotted.addEdge (slotted : g.Slotted) (s t : VertexId) (w : WireId) :
    (g.addEdge s t w).Slotted where
  nodup := by
    simp only [Graph.addEdge, List.map_cons, List.nodup_cons]
    refine ⟨?_, slotted.nodup⟩
    intro member
    obtain ⟨e, member, stamp⟩ := List.mem_map.mp member
    have bound := slotted.bounded e member
    omega
  perm := by
    simp only [Graph.addEdge, List.map_cons]
    exact (List.perm_append_singleton _ _).trans (slotted.perm.cons _)
  bounded := by
    simp only [Graph.addEdge, List.mem_cons]
    intro e given
    rcases given with rfl | member
    · exact Nat.lt_succ_self _
    · exact Nat.lt_succ_of_lt (slotted.bounded e member)

theorem swapRemove_perm {stamp : Nat} {slots : List Nat} (member : stamp ∈ slots) :
    (swapRemove stamp slots).Perm (slots.erase stamp) := by
  rcases List.eq_nil_or_concat slots with rfl | ⟨init, last, rfl⟩
  · simp at member
  rw [List.concat_eq_append] at member ⊢
  simp only [swapRemove, List.getLast?_append, List.getLast?_singleton, Option.some_or,
    List.dropLast_concat]
  split
  · next same =>
      subst same
      refine List.Perm.trans ?_ ((List.perm_append_singleton last init).symm.erase last)
      simp
  · next different =>
      have inside : stamp ∈ init := by
        rcases List.mem_append.mp member with inside | equal
        · exact inside
        · exact absurd (List.mem_singleton.mp equal).symm different
      rw [List.erase_append_left _ inside]
      exact (replace_perm inside).trans (List.perm_append_singleton last _).symm

theorem Slotted.eraseEdge (slotted : g.Slotted) {e : Edge} (member : e ∈ g.edges) :
    (g.eraseEdge e).Slotted where
  nodup := slotted.nodup.sublist (List.erase_sublist.map Edge.stamp)
  perm := by
    have stamps : (g.edges.erase e).map Edge.stamp = (g.edges.map Edge.stamp).erase e.stamp := by
      exact map_erase_of_find? Edge.stamp e.stamp
        (find?_of_nodup_map Edge.stamp slotted.nodup member)
    simp only [Graph.eraseEdge, stamps]
    have inSlots : e.stamp ∈ g.slots :=
      slotted.perm.symm.subset (List.mem_map.mpr ⟨e, member, rfl⟩)
    exact (swapRemove_perm inSlots).trans (slotted.perm.erase e.stamp)
  bounded x member := slotted.bounded x (List.mem_of_mem_erase member)

theorem Slotted.removeEdge (slotted : g.Slotted) (s t : VertexId) (w : WireId) :
    (g.removeEdge s t w).Slotted := by
  unfold Graph.removeEdge
  split
  · next e found => exact slotted.eraseEdge (List.mem_of_find?_eq_some found)
  · exact slotted

theorem Slotted.foldl_eraseEdge (slotted : g.Slotted) {es : List Edge}
    (included : es.Sublist g.edges) : (es.foldl Graph.eraseEdge g).Slotted := by
  induction es generalizing g with
  | nil => exact slotted
  | cons e es ih =>
      have member := included.subset List.mem_cons_self
      apply ih (slotted.eraseEdge member)
      simpa [Graph.eraseEdge] using included.erase e

theorem Slotted.clearVertex (slotted : g.Slotted) (v : VertexId) :
    (g.clearVertex v).Slotted :=
  (slotted.foldl_eraseEdge List.filter_sublist).foldl_eraseEdge List.filter_sublist

theorem Slotted.foldl_clearVertex (slotted : g.Slotted) (block : List VertexId) :
    (block.foldl Graph.clearVertex g).Slotted := by
  induction block generalizing g with
  | nil => exact slotted
  | cons v block ih => exact ih (slotted.clearVertex v)

/-- Going through the slots meets every edge once. -/
theorem Slotted.edgesBySlot_perm (slotted : g.Slotted) : g.edgesBySlot.Perm g.edges := by
  refine (slotted.perm.filterMap _).trans ?_
  rw [List.filterMap_map]
  have every : ∀ es : List Edge, es ⊆ g.edges →
      es.filterMap ((fun stamp => g.edges.find? (·.stamp = stamp)) ∘ Edge.stamp) = es := by
    intro es included
    induction es with
    | nil => rfl
    | cons e es ih =>
        have found := find?_of_nodup_map Edge.stamp slotted.nodup (included List.mem_cons_self)
        have rest := ih fun x member => included (List.mem_cons_of_mem e member)
        simp only [List.filterMap_cons, Function.comp_apply, found]
        exact congrArg (e :: ·) rest
  rw [every g.edges (List.Subset.refl _)]

end Graph

end CircuitDag
