import CircuitDag.Circuit.Capacity
import CircuitDag.Proofs.Circuit.Appending
import CircuitDag.Proofs.Circuit.Decision

/-!
# How large reachable circuits are

The graph of a reachable circuit has a vertex for every record and an edge for every wire and for
every wire of an operation. Construction only adds to these numbers, so it is decided by the circuit
at the end whether it panics on the way.
-/

set_option autoImplicit false

namespace CircuitDag

/-! ## Vertices by kind -/

theorem Records.length_live (rs : Records) : rs.live.length + rs.numTombstones = rs.size := by
  have split : (List.range rs.size).length = (List.range rs.size).countP rs.isRemoved +
      (List.range rs.size).countP fun v => ¬ rs.isRemoved v = true :=
    List.length_eq_countP_add_countP rs.isRemoved
  have kept : rs.live.length = (List.range rs.size).countP fun v => ¬ rs.isRemoved v = true := by
    rw [Records.live, List.length_filterMap_eq_countP]
    refine List.countP_congr fun v member => ?_
    obtain ⟨r, found⟩ : ∃ r, rs.get? v = some r :=
      ⟨_, Array.getElem?_eq_getElem (List.mem_range.mp member)⟩
    cases removed : r.removed <;> simp [Records.isRemoved, found, removed]
  rw [List.length_range] at split
  rw [kept, Records.numTombstones]
  omega

namespace Circuit

variable {c c' : Circuit} {line : WireId → List VertexId} {side : Side} {v : VertexId} {r : Record}
  {new : List Record}

/-- The operations that have not been removed, by increasing number. -/
def liveOperations (c : Circuit) : List (VertexId × Record) :=
  c.records.live.filter fun (_, r) => !r.isAnchor

theorem Seated.countP_anchors (seated : c.Seated line) (side : Side) :
    c.records.live.countP (fun (_, r) => r.element = endElement side) = c.numWires := by
  have unique : (c.anchors side).toList.Nodup := by
    refine List.nodup_iff_getElem?_ne_getElem?.mpr fun i j less bound same => ?_
    have found : (c.anchors side)[j]? = some (c.anchors side).toList[j] := by
      rw [← Array.getElem?_toList]
      exact List.getElem?_eq_getElem bound
    rw [Array.getElem?_toList, Array.getElem?_toList, found] at same
    obtain ⟨s, live, -, wires⟩ := seated.anchored side i _ same
    obtain ⟨t, live', -, wires'⟩ := seated.anchored side j _ found
    rw [live.unique live', wires', List.cons.injEq] at wires
    exact absurd wires.1 (Nat.ne_of_gt less)
  -- the anchors of a side are kept in an array, and their records tell their element
  have anchors : ((c.records.live.filter fun (_, r) => r.element = endElement side).map
      Prod.fst).Perm (c.anchors side).toList := by
    refine (List.perm_ext_iff_of_nodup ?_ unique).mpr fun v => ?_
    · exact c.records.nodup_live.sublist (List.filter_sublist.map _)
    · constructor
      · intro member
        obtain ⟨⟨u, r⟩, listed, rfl⟩ := List.mem_map.mp member
        obtain ⟨live, element⟩ := List.mem_filter.mp listed
        obtain ⟨w, -, anchor⟩ :=
          seated.terminal side u r (Records.mem_live.mp live) (of_decide_eq_true element)
        exact Array.mem_toList_iff.mpr (Array.mem_of_getElem? anchor)
      · intro member
        obtain ⟨w, position⟩ := List.getElem?_of_mem member
        obtain ⟨r, live, element, -⟩ :=
          seated.anchored side w v (Array.getElem?_toList.symm.trans position)
        refine List.mem_map.mpr ⟨(v, r), List.mem_filter.mpr ⟨Records.mem_live.mpr live, ?_⟩, rfl⟩
        exact decide_eq_true element
  rw [List.countP_eq_length_filter, ← List.length_map Prod.fst, anchors.length_eq,
    Array.length_toList, seated.sizes side]

/-- A sum over vertices is one over the operations among them, if all inputs are worth the same and
all outputs are. -/
theorem sum_by_kind {worth : VertexId × Record → Nat} {n : Side → Nat}
    {entries : List (VertexId × Record)} (ends : ∀ side, ∀ entry ∈ entries,
      entry.2.element = endElement side → worth entry = n side) :
    (entries.map worth).sum =
      entries.countP (fun (_, r) => r.element = endElement .incoming) * n .incoming +
      entries.countP (fun (_, r) => r.element = endElement .outgoing) * n .outgoing +
      ((entries.filter fun (_, r) => !r.isAnchor).map worth).sum := by
  induction entries with
  | nil => simp
  | cons entry entries ih =>
      have rest := ih fun side other listed => ends side other (List.mem_cons_of_mem _ listed)
      have own := fun side => ends side entry List.mem_cons_self
      -- an anchor counts on its side alone, any other vertex among the operations alone
      cases anchor : entry.2.isAnchor with
      | false =>
          have noEnd : ∀ side, entry.2.element ≠ endElement side := by
            intro side element
            rw [Record.isAnchor, element] at anchor
            cases side <;> cases anchor
          simp only [List.map_cons, List.sum_cons, List.countP_cons, List.filter_cons, rest, noEnd,
            anchor, decide_false, Bool.not_false, Bool.false_eq_true, ↓reduceIte, Nat.add_zero]
          omega
      | true =>
          obtain ⟨side, element⟩ := exists_endElement anchor
          simp only [List.map_cons, List.sum_cons, List.countP_cons, List.filter_cons, rest, anchor,
            own side element, element, Bool.not_true, Bool.false_eq_true, ↓reduceIte]
          cases side with
          | incoming =>
              simp only [endElement, reduceCtorEq, decide_true, decide_false, Bool.false_eq_true,
                ↓reduceIte, Nat.succ_mul, Nat.add_zero]
              omega
          | outgoing =>
              simp only [endElement, reduceCtorEq, decide_true, decide_false, Bool.false_eq_true,
                ↓reduceIte, Nat.succ_mul, Nat.add_zero]
              omega

/-- A sum over all live vertices is one over the operations, if the anchors of a side are all worth
the same. -/
theorem Seated.sum_live (seated : c.Seated line) (worth : VertexId × Record → Nat) (n : Side → Nat)
    (ends : ∀ side v r, c.records.Live v r → r.element = endElement side → worth (v, r) = n side) :
    (c.records.live.map worth).sum =
      c.numWires * (n .incoming + n .outgoing) + (c.liveOperations.map worth).sum := by
  have split := sum_by_kind fun side entry listed =>
    ends side entry.1 entry.2 (Records.mem_live.mp listed)
  rw [split, seated.countP_anchors, seated.countP_anchors, liveOperations, Nat.mul_add]

/-! ## Vertices and edges -/

theorem Layout.length_liveOperations (layout : c.Layout line) :
    c.liveOperations.length = c.numOperations :=
  layout.live_perm.length_eq.trans layout.length_topologicalOperations

theorem Layout.numRemoved_add (layout : c.Layout line) :
    c.numRemoved + (2 * c.numWires + c.numOperations) = c.records.size := by
  have ones : ∀ entries : List (VertexId × Record), (entries.map fun _ => 1).sum = entries.length :=
    fun entries => by simp
  have vertices := layout.sum_live (fun _ => 1) (fun _ => 1) fun _ _ _ _ _ => rfl
  have total := c.records.length_live
  rw [ones, ones, layout.length_liveOperations] at vertices
  rw [layout.numRemoved]
  omega

/-- An input has no edge into it, and every other vertex one for each of its wires. -/
theorem Layout.length_linksInto (layout : c.Layout line) (live : c.records.Live v r) :
    (linksInto v r).length = if r.element = .input then 0 else r.wires.length := by
  have absent : ∀ i w, r.wires[i]? = some w →
      (r.port? .incoming i = none ↔ r.element = .input) := fun i w position =>
    layout.wellFormed.ports.absent_iff v r i w .incoming live position
  rw [linksInto, List.length_filterMap_eq_countP]
  by_cases input : r.element = .input
  · rw [if_pos input, List.countP_eq_zero]
    rintro ⟨w, i⟩ listed
    simp [(absent i w (List.mk_mem_zipIdx_iff_getElem?.mp listed)).mpr input]
  · rw [if_neg input, ← List.length_zipIdx (l := r.wires), List.countP_eq_length]
    rintro ⟨w, i⟩ listed
    have led := (absent i w (List.mk_mem_zipIdx_iff_getElem?.mp listed)).not.mpr input
    simpa [Option.isSome_iff_ne_none] using led

theorem Layout.numEdges_eq (layout : c.Layout line) :
    c.numEdges = c.numWires + (c.liveOperations.map fun (_, r) => r.wires.length).sum := by
  obtain ⟨-, -, ⟨count, -⟩, -⟩ := check_eq_ok_iff.mp
    (layout.wellFormed.check layout.shaped layout.toThreaded.closed layout.coherent)
  have links : c.numEdges = (c.records.live.map fun (v, r) => (linksInto v r).length).sum := by
    rw [numEdges, count, ← length_links layout.shaped, Circuit.links, List.length_flatMap]
  have ends : ∀ side v r, c.records.Live v r → r.element = endElement side →
      (linksInto v r).length = if side = .incoming then 0 else 1 := by
    intro side v r live element
    rw [layout.length_linksInto live, element]
    cases side with
    | incoming => rfl
    | outgoing =>
        obtain ⟨w, wires⟩ := layout.wellFormed.anchors.alone .outgoing v r live element
        rw [wires]
        rfl
  have operations : ∀ entry ∈ c.liveOperations,
      (linksInto entry.1 entry.2).length = entry.2.wires.length := by
    intro entry listed
    obtain ⟨live, operation⟩ := List.mem_filter.mp listed
    rw [layout.length_linksInto (Records.mem_live.mp live), if_neg]
    intro input
    have anchor : entry.2.isAnchor = true := by
      rw [Record.isAnchor, input]
      rfl
    simp [anchor] at operation
  rw [links, layout.sum_live (fun entry => (linksInto entry.1 entry.2).length) _ ends,
    List.map_congr_left operations]
  simp

/-- How many edges operations need, one for each of their wires. -/
def edgesFor (labels : List Label) : Nat := (labels.map fun label => label.wires.length).sum

@[simp] theorem edgesFor_append (labels labels' : List Label) :
    edgesFor (labels ++ labels') = edgesFor labels + edgesFor labels' := by
  rw [edgesFor, List.map_append, List.sum_append, edgesFor, edgesFor]

theorem edgesFor_cons (label : Label) (labels : List Label) :
    edgesFor (label :: labels) = label.wires.length + edgesFor labels := by
  rw [edgesFor, List.map_cons, List.sum_cons, edgesFor]

/-- Operations on two wires each. -/
theorem edgesFor_pairs {f : Nat → Label} (pairs : ∀ i, (f i).wires.length = 2) (n : Nat) :
    edgesFor ((List.range n).map f) = 2 * n := by
  have twos : ((List.range n).map fun i => (f i).wires.length) = List.replicate n 2 := by
    rw [List.map_congr_left fun i _ => pairs i, List.map_const', List.length_range]
  rw [edgesFor, List.map_map, Function.comp_def, twos, List.sum_replicate_nat, Nat.mul_comm]

theorem edgesFor_eq_of_perm {labels labels' : List Label} (perm : labels.Perm labels') :
    edgesFor labels = edgesFor labels' :=
  (perm.map fun label : Label => label.wires.length).sum_eq

theorem Layout.numEdges_eq_labels (layout : c.Layout line) :
    c.numEdges = c.numWires + edgesFor c.labels := by
  have perm := layout.live_perm.map fun (entry : VertexId × Record) => entry.2.wires.length
  rw [layout.numEdges_eq, edgesFor, labels, List.map_map]
  exact congrArg (c.numWires + ·) perm.sum_eq

/-! ## Added operations -/

theorem Extended.graph_numVertices (extended : c.Extended new c') (layout : c.Layout line) :
    c'.graph.numVertices = c.graph.numVertices + new.length := by
  obtain ⟨line', layout'⟩ := extended.laid
  rw [layout'.numVertices, layout.numVertices, extended.size]

theorem Extended.numEdges (extended : c.Extended new c') (layout : c.Layout line) :
    c'.numEdges = c.numEdges + edgesFor (new.map Record.label) := by
  obtain ⟨line', layout'⟩ := extended.laid
  have wires : c'.numWires = c.numWires := by
    rw [numWires, numWires, extended.numQubits, extended.numClbits]
  rw [layout'.numEdges_eq_labels, layout.numEdges_eq_labels, wires,
    edgesFor_eq_of_perm (extended.rearranged layout).perm, edgesFor_append, Nat.add_assoc]

/-! ## Room in the graph -/

theorem fits_iff : c.fits = true ↔
    c.graph.numVertices ≤ Graph.maxSize ∧ c.numEdges ≤ Graph.maxSize := by
  rw [fits, Bool.and_eq_true, decide_eq_true_iff, decide_eq_true_iff]
  exact Iff.rfl

/-- A circuit needs no more room than another one. -/
structure Within (c d : Circuit) : Prop where
  numVertices : c.graph.numVertices ≤ d.graph.numVertices
  numEdges : c.numEdges ≤ d.numEdges

theorem Extended.within (extended : c.Extended new c') (layout : c.Layout line) :
    c.Within c' where
  numVertices := extended.graph_numVertices layout ▸ Nat.le_add_right _ _
  numEdges := extended.numEdges layout ▸ Nat.le_add_right _ _

theorem Within.fits (within : c.Within c') (fits : c'.fits = true) : c.fits = true := by
  obtain ⟨vertices, edges⟩ := fits_iff.mp fits
  exact fits_iff.mpr ⟨within.numVertices.trans vertices, within.numEdges.trans edges⟩

theorem orPanic_of_fits {ε : Type} (fits : c.fits = true) :
    (c.orPanic : Except (Failure ε) Circuit) = .ok c := if_pos fits

theorem orPanic_of_full {ε : Type} (full : ¬ c.fits = true) :
    (c.orPanic : Except (Failure ε) Circuit) = .error .panic := if_neg full

theorem orPanic_eq_ok_iff {ε : Type} :
    (c.orPanic : Except (Failure ε) Circuit) = .ok c' ↔ c = c' ∧ c'.fits = true := by
  by_cases fits : c.fits = true
  · rw [orPanic_of_fits fits, Except.ok.injEq]
    constructor
    · rintro rfl
      exact ⟨rfl, fits⟩
    · exact And.left
  · rw [orPanic_of_full fits]
    refine iff_of_false (fun given => by cases given) ?_
    rintro ⟨rfl, room⟩
    exact fits room

section Growing

variable {α ε : Type} {step : Circuit → α → Circuit}
  (grows : ∀ (c : Circuit) (a : α), c.Within (step c a))

include grows

theorem within_foldl (l : List α) (c : Circuit) : c.Within (l.foldl step c) := by
  induction l generalizing c with
  | nil => exact ⟨Nat.le_refl _, Nat.le_refl _⟩
  | cons a l ih =>
      have first := grows c a
      have rest := ih (step c a)
      exact ⟨first.numVertices.trans rest.numVertices, first.numEdges.trans rest.numEdges⟩

/-- It is enough to look at the end of steps that only make a circuit larger. -/
theorem foldlM_orPanic (l : List α) (fits : c.fits = true) :
    (l.foldlM (fun c a => (step c a).orPanic) c : Except (Failure ε) Circuit) =
      (l.foldl step c).orPanic := by
  induction l generalizing c with
  | nil => exact (orPanic_of_fits fits).symm
  | cons a l ih =>
      rw [List.foldlM_cons, List.foldl_cons]
      by_cases room : (step c a).fits = true
      · rw [orPanic_of_fits room]
        exact ih room
      · rw [orPanic_of_full room,
          orPanic_of_full fun later => room ((within_foldl grows l _).fits later)]
        rfl

theorem orPanic_bind_foldlM (l : List α) (c : Circuit) :
    (c.orPanic >>= l.foldlM fun c a => (step c a).orPanic : Except (Failure ε) Circuit) =
      (l.foldl step c).orPanic := by
  by_cases fits : c.fits = true
  · rw [orPanic_of_fits fits]
    exact foldlM_orPanic grows l fits
  · rw [orPanic_of_full fits,
      orPanic_of_full fun later => fits ((within_foldl grows l c).fits later)]
    rfl

end Growing

/-! ## Making circuits -/

theorem within_pushEnd (c : Circuit) (side : Side) (wire : WireId) :
    c.Within (c.pushEnd side wire) := by
  obtain ⟨-, graph, -⟩ := pushEnd_spec c side wire
  refine ⟨?_, ?_⟩
  · rw [graph]
    exact Nat.le_succ _
  · rw [numEdges, numEdges, graph]
    exact Nat.le_refl _

theorem within_connectAnchors (c : Circuit) (wire : WireId) :
    c.Within (c.connectAnchors wire) := by
  unfold connectAnchors
  split
  · exact ⟨Nat.le_refl _, Nat.le_succ _⟩
  · exact ⟨Nat.le_refl _, Nat.le_refl _⟩

theorem blank_sizes (numQubits numClbits : Nat) (phase : Binary64) :
    (blank numQubits numClbits phase).graph.numVertices = 2 * (numQubits + numClbits) ∧
      (blank numQubits numClbits phase).numEdges = numQubits + numClbits := by
  obtain ⟨line, layout⟩ := laidOut_blank numQubits numClbits phase
  obtain ⟨qubits, clbits, -⟩ := blank_spec numQubits numClbits phase
  have none := labels_blank numQubits numClbits phase
  have kept : (blank numQubits numClbits phase).numRemoved = 0 := by
    rw [blank_eq]
    refine openWires_keeps (fun c => c.numRemoved = 0) (fun c side w kept => ?_)
      (fun _ _ _ _ kept => kept) rfl _
    obtain ⟨-, -, -, -, -, -, -, same⟩ := pushEnd_spec c side w
    exact same.trans kept
  have vertices := layout.numRemoved_add
  rw [kept, layout.numOperations_eq_length, none, List.length_nil, numWires, qubits, clbits]
    at vertices
  constructor
  · rw [layout.numVertices]
    omega
  · rw [layout.numEdges_eq_labels, none, numWires, qubits, clbits]
    rfl

theorem blank_fits_iff (numQubits numClbits : Nat) (phase : Binary64) :
    (blank numQubits numClbits phase).fits = true ↔
      2 * (numQubits + numClbits) ≤ Graph.maxSize := by
  obtain ⟨vertices, edges⟩ := blank_sizes numQubits numClbits phase
  rw [fits_iff, vertices, edges]
  omega

/-- A circuit is made if its graph has room for it, and making it panics otherwise. -/
theorem create_eq {ε : Type} (numQubits numClbits : Nat) (phase : Binary64) :
    (create numQubits numClbits phase : Except (Failure ε) Circuit) =
      (blank numQubits numClbits phase).orPanic := by
  have start : ({ numQubits, numClbits, globalPhase := phase } : Circuit).fits = true := rfl
  rw [create]
  by_cases many : arrayLimit ≤ numQubits + numClbits
  · have full : ¬ (blank numQubits numClbits phase).fits = true := by
      have limits : Graph.maxSize < 2 * arrayLimit := by decide
      rw [blank_fits_iff]
      omega
    rw [if_pos many, orPanic_of_full full]
    rfl
  · have inputs : ∀ c w, Within c (pushInput c w) := fun c w => within_pushEnd c .incoming w
    have outputs : ∀ c w, Within c (pushOutput c w) := fun c w => within_pushEnd c .outgoing w
    rw [if_neg many, blank, ← orPanic_bind_foldlM within_connectAnchors,
      ← orPanic_bind_foldlM outputs, ← foldlM_orPanic inputs _ start, bind_assoc]

end Circuit

end CircuitDag
