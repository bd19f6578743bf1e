import CircuitDag.Proofs.Circuit.Capacity
import CircuitDag.Proofs.Circuit.LongestPaths
import CircuitDag.Proofs.Pass.Pipelines

/-!
# Figures that agree

The figures of a circuit are kept and computed in different places: a count of removed vertices, the
array of edges, the records, the table of parameters and the longest path. On a reachable circuit
they all tell the same of its wires and of its operations, since every wire has one input and one
output and every port at an operation is at one edge.
-/

set_option autoImplicit false

namespace CircuitDag.Circuit

variable {c : Circuit} {line : WireId → List VertexId}

/-! ## Counts along a path -/

/-- A vertex is an operation with an element. -/
def hasElement (c : Circuit) (e : Element) (v : VertexId) : Bool :=
  c.isOperation v && c.element? v == some e

theorem timesIn_countElements (c : Circuit) (vs : List VertexId) (e : Element) :
    e.timesIn (c.countElements vs) = vs.countP (c.hasElement e) := by
  rw [countElements, Element.timesIn_counts, Records.select]
  induction vs with
  | nil => rfl
  | cons v vs ih =>
      rw [List.countP_cons, ← ih, List.filterMap_cons, hasElement, isOperation, element?]
      cases c.records.get? v with
      | none => rfl
      | some r =>
          simp only [Option.map_some, List.filter_cons]
          by_cases kept : (!r.isAnchor && !r.removed) = true
          · simp [kept, List.count_cons]
          · simp [kept]

theorem Layout.nodup_of_isPath (layout : c.Layout line) {path : List VertexId}
    (isPath : c.IsPath path) : path.Nodup := by
  have before : path.IsChain (Relation.TransGen c.graph.Joins) := isPath.imp fun _ _ => .single
  refine (List.isChain_iff_pairwise.mp before).imp fun {u v} later same => ?_
  exact layout.wellFormed.edges.acyclic u (same ▸ later)

theorem Layout.isPath_longestPath (layout : c.Layout line) :
    c.IsPath c.longestPath ∧ ∀ v ∈ c.longestPath, ∃ w, v ∈ line w := by
  rcases layout.longestPath_cases with ⟨-, none⟩ | ⟨w, last, output, path, -⟩
  · rw [none]
    exact ⟨List.isChain_nil, nofun⟩
  · obtain ⟨member, -⟩ := layout.level_of_output output
    obtain ⟨front, back, shape, enough⟩ := layout.exists_listed member
    obtain ⟨isPath, ends, -⟩ := layout.tracePath_spec shape enough (List.isChain_singleton last)
    rw [path]
    exact ⟨isPath, layout.mem_line_of_isPath isPath ends member⟩

/-- What is counted on the longest path is counted on all vertices. -/
theorem Layout.countP_longestPath_le (layout : c.Layout line) (p : VertexId → Bool) :
    c.longestPath.countP p ≤ (List.range c.records.size).countP p := by
  obtain ⟨isPath, onLines⟩ := layout.isPath_longestPath
  refine (List.subperm_of_subset (layout.nodup_of_isPath isPath) fun v member => ?_).countP_le p
  obtain ⟨w, stands⟩ := onLines v member
  exact List.mem_range.mpr (layout.lt_size stands)

theorem Layout.depth_eq_operationsOn (layout : c.Layout line) :
    c.depth = c.operationsOn c.longestPath :=
  layout.numOperationsOf_eq layout.isPath_longestPath.2

/-! ## All figures -/

/-- The figures of a circuit agree with one another and with the operations of the circuit. -/
structure FiguresAgree (c : Circuit) (figures : CircuitMetrics) : Prop where
  numVertices : figures.numVertices = 2 * c.numWires + figures.numOperations
  numEdges : figures.numEdges =
    c.numWires + (c.liveOperations.map fun (_, r) => r.wires.length).sum
  numOperations : figures.numOperations = c.liveOperations.length
  elementCounts : (figures.elementCounts.map Prod.snd).sum = figures.numOperations
  longestPathCounts : (figures.longestPathCounts.map Prod.snd).sum = figures.depth
  depth_le : figures.depth ≤ figures.numOperations
  counts_le : ∀ e : Element, e.timesIn figures.longestPathCounts ≤ e.timesIn figures.elementCounts
  numParameters : figures.numParameters =
    ((c.liveOperations.flatMap fun (_, r) => r.params).filter Param.isSymbolic).dedup.length

theorem Layout.figuresAgree (layout : c.Layout line) (suited : c.records.Suited) :
    c.FiguresAgree (CircuitMetrics.ofCircuit c) where
  numVertices := by
    have total := layout.numRemoved_add
    change c.records.size - c.numRemoved = 2 * c.numWires + c.numOperations
    omega
  numEdges := layout.numEdges_eq
  numOperations := layout.length_liveOperations.symm
  elementCounts := by
    change (c.elementCounts.map Prod.snd).sum = c.numOperations
    rw [layout.elementCounts_eq, Element.sum_counts, List.length_map,
      layout.numOperations_eq_length]
  longestPathCounts := (sum_countElements c c.longestPath).trans layout.depth_eq_operationsOn.symm
  depth_le := by
    change c.depth ≤ c.numOperations
    rw [layout.depth_eq_operationsOn, numOperations_eq]
    exact layout.countP_longestPath_le c.isOperation
  counts_le e := by
    change e.timesIn (c.countElements c.longestPath) ≤ e.timesIn (c.countElements _)
    rw [timesIn_countElements, timesIn_countElements]
    exact layout.countP_longestPath_le (c.hasElement e)
  numParameters := by
    have perm : (c.liveOperations.flatMap fun (_, r) => r.params).Perm
        (c.labels.flatMap Label.params) := by
      rw [labels, List.flatMap_map]
      exact layout.live_perm.flatMap_right _
    exact (layout.numParameters_eq suited).trans (perm.symm.filter _).dedup.length_eq

/-- The figures of a reachable circuit agree, and no more vertices are removed than there are. The
check succeeds, and the text of the circuit, its metrics and its verification report the figures. -/
theorem figures_agree (reachable : c.Reachable) :
    let m := CircuitMetrics.ofCircuit c
    c.FiguresAgree m ∧ c.numRemoved ≤ c.records.size ∧ c.check = .ok () ∧
    c.text =
      s!"circuit \x7bnq={m.numQubits}, ncl={m.numClbits}, nv={m.numVertices}, ne={m.numEdges}\x7d" ∧
    ∀ properties, ∃ s' : Compilation,
      (Pipeline.run [.circuitAnalysis, .integrityVerification]).run ⟨c, properties⟩ = .ok () s' ∧
      s'.circuit = c ∧ s'.properties.metrics? = some m ∧
      s'.properties.verification? = some ⟨true, m.numVertices, m.numEdges⟩ := by
  intro m
  have checked := reachable.laidOut.check_eq_ok
  obtain ⟨line, layout⟩ := reachable.laidOut
  refine ⟨layout.figuresAgree reachable.suited, reachable.laidOut.numRemoved_le, checked, rfl,
    fun properties => ?_⟩
  have analysis := Pipeline.runPass_run (circuitAnalysis_run ⟨c, properties⟩)
  have verification := Pipeline.runPass_run (integrityVerification_run (s := ⟨c,
    { properties with metrics? := some m }⟩) checked)
  exact ⟨_, (Pipeline.run_cons analysis).trans (Pipeline.run_cons verification), rfl, rfl, rfl⟩

/-- A rotation that has been removed again is not counted, and its parameter is not either. -/
theorem figures_agree_removed_rotation :
    let c := Change.after (Change.after (Change.after (blank 1 1)
      (.addOperation { element := .rx, params? := some [.symbol "a"] } [0] []))
      (.addOperation { element := .measure } [0] [1])) (.removeOperation 4)
    let m := CircuitMetrics.ofCircuit c
    c.FiguresAgree m ∧ c.numRemoved = 1 ∧ m.numVertices = 5 ∧ m.numEdges = 4 ∧
      m.numOperations = 1 ∧ m.numParameters = 0 := by
  intro c m
  have reachable : c.Reachable := (((Reachable.blank 1 1 Binary64.zero).change _).change _).change _
  refine ⟨(figures_agree reachable).1, ?_⟩
  decide +kernel

end CircuitDag.Circuit
