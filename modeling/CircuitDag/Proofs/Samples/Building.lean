import CircuitDag.Builder
import CircuitDag.Proofs.Circuit.Capacity
import CircuitDag.Proofs.Circuit.CompositionDepth

/-!
# Circuits built by calls

A builder that accepts all its calls puts their operations on the wires in the order of the calls.
The listing of the circuit is a rearrangement of the calls, so counts, depth and parts can be read
off the calls.
-/

set_option autoImplicit false

namespace CircuitDag

/-- An operation of a call on its wires. -/
def Call.label (call : Call) : Label := call.operation.label (call.qubits ++ call.clbits)

/-- The record that a call makes, ports apart. -/
def Call.record (call : Call) : Record := Record.unwired call.operation call.qubits call.clbits

namespace Circuit

variable {c : Circuit} {calls : List Call} {b : Builder} {numQubits numClbits : Nat}
  {labels : List Label}

/-- A call that the circuit accepts. -/
abbrev AcceptsCall (c : Circuit) (call : Call) : Prop :=
  c.Accepts call.operation call.qubits call.clbits

/-- An element with fixed numbers of qubits, bits and parameters is accepted on distinct wires of
the right kinds. -/
theorem blank_accepts {op : Operation} {qubits clbits : List WireId}
    (operation : op.element.isAnchor = false)
    (arities : op.element.numQubits = some qubits.length ∧
      op.element.numClbits = some clbits.length ∧ op.element.numParams = some op.params.length)
    (nonempty : qubits ++ clbits ≠ []) (nodup : (qubits ++ clbits).Nodup)
    (quantum : ∀ w ∈ qubits, w < numQubits)
    (classical : ∀ w ∈ clbits, numQubits ≤ w ∧ w < numQubits + numClbits) :
    (blank numQubits numClbits).Accepts op qubits clbits := by
  obtain ⟨forQubits, forClbits, forParams⟩ := arities
  obtain ⟨ofQubits, ofClbits, -⟩ := blank_spec numQubits numClbits Binary64.zero
  refine ⟨operation, nonempty, fun n known => ?_, fun n known => ?_, fun n known => ?_, nodup,
    ?_, ?_⟩
  · exact Option.some.inj (known.symm.trans forQubits)
  · exact Option.some.inj (known.symm.trans forClbits)
  · exact Option.some.inj (known.symm.trans forParams)
  · rw [ofQubits]
    exact quantum
  · rw [Circuit.numWires, ofQubits, ofClbits]
    exact classical

theorem blank_accepts_hadamard {a : WireId} (inside : a < numQubits) :
    (blank numQubits numClbits).AcceptsCall (.h a) := by
  refine blank_accepts rfl ⟨rfl, rfl, rfl⟩ (List.cons_ne_nil _ _) (List.nodup_singleton a) ?_ nofun
  simpa [Call.h, Call.plain] using inside

theorem blank_accepts_pair {call : Call} {a b : WireId} (on : call.qubits = [a, b])
    (unclassical : call.clbits = []) (operation : call.operation.element.isAnchor = false)
    (arities : call.operation.element.numQubits = some 2 ∧
      call.operation.element.numClbits = some 0 ∧
      call.operation.element.numParams = some call.operation.params.length)
    (apart : a ≠ b) (left : a < numQubits) (right : b < numQubits) :
    (blank numQubits numClbits).AcceptsCall call := by
  obtain ⟨op, qubits, clbits⟩ := call
  cases on
  cases unclassical
  refine blank_accepts operation arities (List.cons_ne_nil _ _) ?_ ?_ nofun
  · simpa using apart
  · simpa using And.intro left right

/-- The circuit after some calls, however large it gets. -/
def withCalls (c : Circuit) (calls : List Call) : Circuit :=
  calls.foldl (fun c call =>
    Change.after c (.addOperation call.operation call.qubits call.clbits)) c

/-- Calls that are all accepted add their operations one after the other. -/
theorem Reachable.withCalls (reachable : c.Reachable)
    (accepted : ∀ call ∈ calls, c.AcceptsCall call) :
    (c.withCalls calls).Reachable ∧ c.Extended (calls.map Call.record) (c.withCalls calls) := by
  induction calls generalizing c with
  | nil => exact ⟨reachable, reachable.laidOut.extended_nil⟩
  | cons call calls ih =>
      rw [List.forall_mem_cons] at accepted
      obtain ⟨accepts, others⟩ := accepted
      obtain ⟨line, layout⟩ := reachable.laidOut
      have extended := layout.extended_addOperation accepts
      have step := reachable.change (.addOperation call.operation call.qubits call.clbits)
      obtain ⟨reached, further⟩ := ih step fun other member =>
        (others other member).of_eq extended.numQubits extended.numClbits
      exact ⟨reached, extended.trans further⟩

theorem apply_run {call : Call} (accepts : b.circuit.AcceptsCall call) :
    (Builder.apply call).run b =
      if (b.circuit.withCalls [call]).fits = true then
        .ok () ⟨b.circuit.withCalls [call], some b.circuit.records.size⟩
      else .error .panic b := by
  have added := addOperation_run call.operation call.qubits call.clbits b.circuit
  rw [validate_eq_ok_iff.mpr accepts] at added
  have after : b.circuit.withCalls [call] = b.circuit.place call.operation call.qubits call.clbits
      (b.circuit.outputPorts (call.qubits ++ call.clbits)) := by
    rw [Circuit.withCalls, List.foldl_cons, List.foldl_nil, Change.after, Edit.after, added]
  rw [Builder.apply, EStateM.run_bind, EStateM.run_get, after]
  simp only [added]
  split <;> rfl

/-- A builder that accepts all calls takes them if the graph has room for all of them, and panics
otherwise. -/
theorem Reachable.applyAll_run (reachable : b.circuit.Reachable)
    (accepted : ∀ call ∈ calls, b.circuit.AcceptsCall call) (room : b.circuit.fits = true) :
    ((b.circuit.withCalls calls).fits = true →
      ∃ last?, (Builder.applyAll calls).run b = .ok () ⟨b.circuit.withCalls calls, last?⟩) ∧
    (¬ (b.circuit.withCalls calls).fits = true →
      ∃ b', (Builder.applyAll calls).run b = .error .panic b') := by
  induction calls generalizing b with
  | nil => exact ⟨fun _ => ⟨b.last?, rfl⟩, fun full => absurd room full⟩
  | cons call calls ih =>
      rw [List.forall_mem_cons] at accepted
      obtain ⟨accepts, others⟩ := accepted
      obtain ⟨reached, extended⟩ := reachable.withCalls (List.forall_mem_singleton.mpr accepts)
      have accepted' : ∀ call' ∈ calls, (b.circuit.withCalls [call]).AcceptsCall call' :=
        fun other member => (others other member).of_eq extended.numQubits extended.numClbits
      have unroll : (Builder.applyAll (call :: calls)).run b =
          EStateM.run (Builder.apply call >>= fun _ => Builder.applyAll calls) b := rfl
      rw [unroll, EStateM.run_bind, apply_run accepts]
      by_cases first : (b.circuit.withCalls [call]).fits = true
      · simp only [if_pos first]
        exact ih (b := ⟨_, _⟩) reached accepted' first
      · -- what is added later does not make room
        obtain ⟨line, layout⟩ := reached.laidOut
        have later := ((reached.withCalls accepted').2.within layout).fits.mt first
        simp only [if_neg first]
        exact ⟨fun fits => absurd fits later, fun _ => ⟨b, rfl⟩⟩

/-- A circuit on given numbers of wires whose operations are those of some labels, in an order that
agrees with that of the labels on every wire. Nothing has been removed from it. -/
structure Carrying (numQubits numClbits : Nat) (labels : List Label) (c : Circuit) : Prop where
  reachable : c.Reachable
  numVertices : c.graph.numVertices = 2 * (numQubits + numClbits) + labels.length
  numQubits : c.numQubits = numQubits
  numClbits : c.numClbits = numClbits
  rearranged : Rearranged Label.wires c.labels labels

/-- If all calls are accepted, there is a circuit that carries their operations. It is built if its
graph has room for it, and the construction panics if not. -/
theorem ofCalls_carrying
    (accepted : ∀ call ∈ calls, (blank numQubits numClbits).AcceptsCall call) :
    ∃ c, Carrying numQubits numClbits (calls.map Call.label) c ∧
      ofCalls numQubits numClbits calls = c.orPanic := by
  have start : (blank numQubits numClbits).Reachable := .blank numQubits numClbits Binary64.zero
  obtain ⟨qubits, clbits, -⟩ := blank_spec numQubits numClbits Binary64.zero
  obtain ⟨vertices, -⟩ := blank_sizes numQubits numClbits Binary64.zero
  obtain ⟨reachable, extended⟩ := start.withCalls accepted
  obtain ⟨line, layout⟩ := start.laidOut
  have rearranged := extended.rearranged layout
  rw [List.map_map] at rearranged
  change Rearranged _ _ ((blank numQubits numClbits).labels ++ calls.map Call.label) at rearranged
  rw [labels_blank, List.nil_append] at rearranged
  have sizes := extended.graph_numVertices layout
  rw [vertices, List.length_map, ← List.length_map Call.label] at sizes
  refine ⟨_, ⟨reachable, sizes, extended.numQubits.trans qubits, extended.numClbits.trans clbits,
    rearranged⟩, ?_⟩
  by_cases room : (blank numQubits numClbits).fits = true
  · have made : Builder.create numQubits numClbits =
        .ok (.ofCircuit (blank numQubits numClbits)) := by
      rw [Builder.create, create_eq, orPanic_of_fits room]
      rfl
    obtain ⟨succeeds, panics⟩ := Reachable.applyAll_run
      (b := .ofCircuit (blank numQubits numClbits)) start accepted room
    rw [ofCalls, made]
    by_cases fits : ((blank numQubits numClbits).withCalls calls).fits = true
    · obtain ⟨last?, run⟩ := succeeds fits
      rw [orPanic_of_fits fits, ok_bind, run]
      rfl
    · obtain ⟨b', run⟩ := panics fits
      rw [orPanic_of_full fits, ok_bind, run]
  · rw [ofCalls, Builder.create, create_eq, orPanic_of_full room,
      orPanic_of_full ((extended.within layout).fits.mt room)]
    rfl

section Carrying

variable (carrying : Carrying numQubits numClbits labels c)
include carrying

theorem Carrying.numWires : c.numWires = numQubits + numClbits := by
  rw [Circuit.numWires, carrying.numQubits, carrying.numClbits]

/-- Whether there is room for a circuit can be read off its labels. -/
theorem Carrying.fits_iff : c.fits = true ↔
    2 * (numQubits + numClbits) + labels.length ≤ Graph.maxSize ∧
      numQubits + numClbits + edgesFor labels ≤ Graph.maxSize := by
  obtain ⟨line, layout⟩ := carrying.reachable.laidOut
  rw [Circuit.fits_iff, carrying.numVertices, layout.numEdges_eq_labels, carrying.numWires,
    edgesFor_eq_of_perm carrying.rearranged.perm]

theorem Carrying.timesIn_elementCounts (e : Element) :
    e.timesIn c.elementCounts = (labels.map Label.element).count e := by
  obtain ⟨line, layout⟩ := carrying.reachable.laidOut
  rw [layout.timesIn_elementCounts]
  exact (carrying.rearranged.perm.map _).count_eq e

/-- How often an element stands on given wires, in this order. -/
theorem Carrying.countP_topologicalOperations (e : Element) (wires : List WireId) :
    c.topologicalOperations.countP (fun entry => entry.2.element = e ∧ entry.2.wires = wires) =
      (labels.map fun label => (label.element, label.wires)).count (e, wires) := by
  rw [← (carrying.rearranged.perm.map _).count_eq, Circuit.labels, List.map_map, List.count,
    List.countP_map]
  refine List.countP_congr fun entry _ => ?_
  rw [decide_eq_true_iff, Function.comp_apply, Function.comp_apply, beq_iff_eq, Prod.mk.injEq]
  rfl

theorem Carrying.depth_eq :
    c.depth = highest (levelsBehind labels) (List.range (numQubits + numClbits)) := by
  obtain ⟨line, layout⟩ := carrying.reachable.laidOut
  rw [layout.depth_eq, carrying.rearranged.levelsBehind_eq, carrying.numWires]

/-- All wires are joined if each of them is joined with the first one. -/
theorem Carrying.numTensorFactors_eq_one (nonempty : 0 < numQubits + numClbits)
    (joined : ∀ a : Fin (numQubits + numClbits),
      Relation.EqvGen (Together (numQubits + numClbits) labels) a ⟨0, nonempty⟩) :
    c.numTensorFactors = 1 := by
  obtain ⟨line, layout⟩ := carrying.reachable.laidOut
  obtain ⟨-, -, rfl, rfl, rearranged⟩ := carrying
  have together : Together c.numWires c.labels = Together c.numWires labels := by
    funext a b
    simp only [Together, rearranged.perm.mem_iff]
  rw [layout.numTensorFactors_eq, together, Nat.card_eq_one_iff_exists]
  refine ⟨Quotient.mk _ ⟨0, nonempty⟩, fun part => ?_⟩
  induction part using Quotient.ind with
  | _ a => exact Quotient.sound (joined a)

end Carrying

end Circuit

end CircuitDag
