import CircuitDag.Proofs.Circuit.Depth
import CircuitDag.Proofs.Circuit.Operands
import CircuitDag.Proofs.Circuit.TensorFactors

/-!
# What the labels tell of a circuit

How often elements occur, how many symbolic parameters there are, how many independent parts there
are and how deep a circuit is depends only on the labels along its wires, not on the numbers of its
vertices or the order of its listing.
-/

set_option autoImplicit false

namespace CircuitDag

variable {labels labels' : List Label}

theorem Rearranged.perm {α β : Type} {places : α → List β} {l l' : List α}
    (rearranged : Rearranged places l l') : l.Perm l' := by
  induction rearranged with
  | refl => exact .refl _
  | tail _ swap ih =>
      obtain ⟨front, a, b, back, -⟩ := swap
      exact ih.trans ((List.Perm.swap b a back).append_left front)

theorem Element.counts_eq_of_perm {es es' : List Element} (same : es.Perm es') :
    Element.counts es = Element.counts es' := by
  simp only [counts, same.count_eq]

/-- How often an element occurs, as some counts tell. -/
def Element.timesIn (counts : List (Element × Nat)) (e : Element) : Nat := (counts.lookup e).getD 0

theorem Element.timesIn_counts (es : List Element) (e : Element) :
    e.timesIn (Element.counts es) = es.count e := by
  have lookup : ∀ listed : List Element, ((listed.filterMap fun e =>
      if es.count e = 0 then none else some (e, es.count e)).lookup e).getD 0 =
        if e ∈ listed then es.count e else 0 := by
    intro listed
    induction listed with
    | nil => rfl
    | cons first listed ih =>
        by_cases absent : es.count first = 0
        · rw [List.filterMap_cons_none (by simp [absent]), ih]
          by_cases same : e = first
          · simp [same, absent]
          · simp [same]
        · rw [List.filterMap_cons_some (by rw [if_neg absent])]
          by_cases same : e = first
          · simp [same]
          · rw [List.lookup_cons, beq_false_of_ne same, ih]
            simp [same]
  have all := lookup Element.all
  rw [if_pos (Element.mem_all e)] at all
  exact all

namespace Circuit

variable {c c' : Circuit} {line line' : WireId → List VertexId} {v : VertexId} {r : Record}
  {p : Param}

/-! ## Counts -/

/-- The live operations by number are those of the listing. -/
theorem Layout.live_perm (layout : c.Layout line) :
    (c.records.live.filter fun (_, r) => !r.isAnchor).Perm c.topologicalOperations := by
  have unique : (c.records.live.filter fun (_, r) => !r.isAnchor).Nodup :=
    (List.Nodup.of_map _ c.records.nodup_live).filter _
  have unique' : c.topologicalOperations.Nodup :=
    (List.Nodup.of_map _ (Records.nodup_select layout.linearizes.nodup)).filter _
  refine (List.perm_ext_iff_of_nodup unique unique').mpr fun (v, r) => ?_
  rw [layout.mem_topologicalOperations, List.mem_filter, Records.mem_live, Bool.not_eq_true']

theorem Layout.elementCounts_eq (layout : c.Layout line) :
    c.elementCounts = Element.counts (c.labels.map Label.element) := by
  have listed : (c.records.select (List.range c.records.size)).filter
      (fun (_, r) => !r.isAnchor && !r.removed) =
      c.records.live.filter fun (_, r) => !r.isAnchor := by
    rw [Records.select, Records.live, List.filter_filterMap, List.filter_filterMap]
    refine List.filterMap_congr fun v _ => ?_
    cases c.records.get? v with
    | none => rfl
    | some r => cases removed : r.removed <;> simp [Option.filter, removed]
  rw [elementCounts, countElements, listed, labels, List.map_map]
  exact Element.counts_eq_of_perm (layout.live_perm.map _)

/-! ## Parameters -/

theorem Layout.length_topologicalOperations (layout : c.Layout line) :
    c.topologicalOperations.length = c.numOperations := by
  rw [← layout.live_perm.length_eq, ← List.countP_eq_length_filter, numOperations]
  refine List.countP_congr fun entry _ => ?_
  simp [Record.isAnchor, Element.isAnchor]

theorem Layout.numOperations_eq_length (layout : c.Layout line) :
    c.numOperations = c.labels.length := by
  rw [← layout.length_topologicalOperations, labels, List.length_map]

theorem Layout.timesIn_elementCounts (layout : c.Layout line) (e : Element) :
    e.timesIn c.elementCounts = (c.labels.map Label.element).count e := by
  rw [layout.elementCounts_eq, Element.timesIn_counts]

/-- The symbolic parameters of some operations. -/
def symbolicParams (labels : List Label) : List Param :=
  (labels.flatMap Label.params).filter Param.isSymbolic

/-- Parameters occur in the table exactly if they are on operations. -/
theorem Layout.mem_occurring_iff (layout : c.Layout line) (suited : c.records.Suited) :
    p ∈ (c.params.entries.filter fun e => !e.slots.isEmpty).map ParamEntry.param ↔
      p ∈ symbolicParams c.labels := by
  have held : p ∈ (c.params.entries.filter fun e => !e.slots.isEmpty).map ParamEntry.param ↔
      ∃ slot, c.params.holds slot p = true := by
    simp only [ParamTable.holds_iff_exists layout.coherent.distinct, List.mem_map,
      List.mem_filter]
    constructor
    · intro given
      obtain ⟨e, ⟨member, occupied⟩, rfl⟩ := given
      obtain ⟨slot, inside⟩ := List.exists_mem_of_ne_nil e.slots (by simpa using occupied)
      obtain ⟨id, position⟩ := List.getElem?_of_mem member
      exact ⟨slot, id, by rw [List.getElem?_map, position]; rfl, e, position, inside⟩
    · intro given
      obtain ⟨slot, id, numbered, e, position, inside⟩ := given
      rw [List.getElem?_map, position] at numbered
      exact ⟨e, ⟨List.mem_of_getElem? position, by simpa using List.ne_nil_of_mem inside⟩,
        Option.some.inj numbered⟩
  rw [held, exists_congr fun slot => layout.indexed slot p]
  simp only [symbolicParams, labels, List.mem_filter, List.mem_flatMap, List.mem_map]
  constructor
  · intro given
    obtain ⟨slot, symbolic, live, found⟩ := given
    obtain ⟨r, live⟩ := Records.isLive_iff.mp live
    rw [Records.param?_eq live.1] at found
    have member : p ∈ r.params := List.mem_of_getElem? found
    have operation : r.isAnchor = false := by
      cases anchor : r.isAnchor with
      | false => rfl
      | true =>
          rw [(suited.suits _ r live).params_of_isAnchor anchor] at member
          cases member
    exact ⟨⟨r.label, ⟨(slot.vertex, r), layout.mem_topologicalOperations.mpr ⟨live, operation⟩,
      rfl⟩, member⟩, symbolic⟩
  · intro given
    obtain ⟨⟨_, ⟨⟨v, r⟩, listed, rfl⟩, member⟩, symbolic⟩ := given
    have live := (layout.mem_topologicalOperations.mp listed).1
    obtain ⟨i, found⟩ := List.getElem?_of_mem member
    exact ⟨⟨v, i⟩, symbolic, Records.isLive_of_live live, (Records.param?_eq live.1 i).trans found⟩

theorem Layout.numParameters_eq (layout : c.Layout line) (suited : c.records.Suited) :
    c.numParameters = (symbolicParams c.labels).dedup.length := by
  have length : c.numParameters =
      ((c.params.entries.filter fun e => !e.slots.isEmpty).map ParamEntry.param).length := by
    rw [numParameters, ParamTable.numParameters, List.length_map, ← ParamTable.map_snd_occurring,
      List.length_map]
  rw [length]
  refine List.Perm.length_eq ((List.perm_ext_iff_of_nodup ?_ (List.nodup_dedup _)).mpr fun p => ?_)
  · exact layout.coherent.distinct.sublist (List.filter_sublist.map _)
  · rw [List.mem_dedup, layout.mem_occurring_iff suited]

/-! ## Circuits with the same labels -/

theorem Layout.label_wires (layout : c.Layout line) :
    ∀ label ∈ c.labels, label.wires ≠ [] ∧ ∀ w ∈ label.wires, w < c.numWires := by
  intro label member
  obtain ⟨⟨v, r⟩, listed, rfl⟩ := List.mem_map.mp member
  have wired := layout.wired v r (layout.mem_topologicalOperations.mp listed).1
  refine ⟨wired.nonempty, fun w here => ?_⟩
  obtain ⟨i, position⟩ := List.getElem?_of_mem here
  exact (wired.placed i w position).1

/-- Circuits with the same wires and the same labels on them have the same depth and the same
numbers of elements, parts and parameters. -/
theorem measures_agree (layout : c.Layout line) (layout' : c'.Layout line')
    (suited : c.records.Suited) (suited' : c'.records.Suited) (wires : c'.numWires = c.numWires)
    (agree : ∀ w, c'.wireLabels w = c.wireLabels w) :
    c'.depth = c.depth ∧ c'.elementCounts = c.elementCounts ∧
      c'.numTensorFactors = c.numTensorFactors ∧ c'.numParameters = c.numParameters := by
  have rearranged : Rearranged Label.wires c'.labels c.labels := by
    refine rearranged_of_standingAt_eq
      (fun label member => (layout'.label_wires label member).1)
      (fun label member => (layout.label_wires label member).1) fun w => ?_
    rw [layout.standingAt_labels, layout'.standingAt_labels, agree]
  have perm := rearranged.perm
  refine ⟨?_, ?_, ?_, ?_⟩
  · rw [layout.depth_eq, layout'.depth_eq, rearranged.levelsBehind_eq, wires]
  · rw [layout.elementCounts_eq, layout'.elementCounts_eq]
    exact Element.counts_eq_of_perm (perm.map _)
  · have together : Together c.numWires c'.labels = Together c.numWires c.labels := by
      funext a b
      simp only [Together, perm.mem_iff]
    rw [layout.numTensorFactors_eq, layout'.numTensorFactors_eq, wires, together]
  · rw [layout.numParameters_eq suited, layout'.numParameters_eq suited']
    exact ((perm.flatMap_right _).filter _).dedup.length_eq

end Circuit

end CircuitDag
