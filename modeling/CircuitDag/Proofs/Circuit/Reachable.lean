import CircuitDag.Proofs.Circuit.Blocks
import CircuitDag.Proofs.Circuit.Compaction
import CircuitDag.Proofs.Circuit.Insertion
import CircuitDag.Proofs.Circuit.Parameters
import CircuitDag.Proofs.Circuit.WellFormed
import CircuitDag.Proofs.Circuit.Wires

/-!
# Reachable circuits

A circuit is reachable if it comes from a circuit without operations by changes of any kind, with
any arguments, those that fail included. Every change keeps the invariant.
-/

set_option autoImplicit false

namespace CircuitDag

/-! ## Edits in sequence -/

section Sequences

variable {α β : Type} {c : Circuit}

theorem Edit.after_eq_of_run {edit : Edit α} {a : α} {c' : Circuit} (run : edit.run c = .ok a c') :
    edit.after c = c' := by
  rw [Edit.after, run]

theorem Edit.after_bind_of_ok {edit : Edit α} {next : α → Edit β} {a : α} {c' : Circuit}
    (run : edit.run c = .ok a c') : (edit >>= next).after c = (next a).after c' := by
  rw [Edit.after, Edit.after, EStateM.run_bind, run]

theorem Edit.after_bind_of_error {edit : Edit α} {next : α → Edit β} {cause : CircuitError}
    {c' : Circuit} (run : edit.run c = .error cause c') : (edit >>= next).after c = c' := by
  rw [Edit.after, EStateM.run_bind, run]

theorem Edit.after_discard (edit : Edit α) (c : Circuit) :
    Edit.after (discard edit) c = edit.after c := by
  unfold Edit.after discard
  rw [map_const, Function.comp_apply, ← bind_pure_comp, EStateM.run_bind]
  cases edit.run c <;> rfl

/-- What every single edit keeps is kept by the edits for all elements of a list, and by what
follows them. -/
theorem Edit.keeps_forM {keeps : Circuit → Prop} {edit : α → Edit Unit} {next : Edit β}
    (each : ∀ c x, keeps c → keeps ((edit x).after c)) (last : ∀ c, keeps c → keeps (next.after c))
    (l : List α) (holds : keeps c) : keeps ((do l.forM edit; next : Edit β).after c) := by
  induction l generalizing c with
  | nil => exact last c holds
  | cons x l ih =>
      have step := each c x holds
      have unroll : (do (x :: l).forM edit; next : Edit β) = (do edit x; l.forM edit; next) :=
        bind_assoc ..
      rw [unroll]
      cases run : (edit x).run c with
      | ok a c' =>
          rw [Edit.after_eq_of_run run] at step
          rw [Edit.after_bind_of_ok run]
          exact ih step
      | error cause c' =>
          rw [Edit.after, run] at step
          rw [Edit.after_bind_of_error run]
          exact step

end Sequences

namespace Circuit

variable {c : Circuit} {line : WireId → List VertexId}

/-! ## The global phase and composition -/

theorem LaidOut.setGlobalPhase (laid : c.LaidOut) (phase : Binary64) :
    (c.setGlobalPhase phase).LaidOut := by
  obtain ⟨line, layout⟩ := laid
  refine ⟨line, layout.toThreaded.of_eq rfl rfl, ?_, ?_, layout.orderly⟩
  · exact layout.toSeated.of_sameSeats ⟨rfl, rfl, rfl, rfl, rfl⟩
  · exact ⟨layout.coherent, layout.indexed, layout.numRemoved⟩

theorem append_run {other : Circuit} {order? : Option (List WireId)}
    (valid : c.validateOrder other (order?.getD (c.defaultOrder other)) = .ok ()) :
    (append other order?).run c = EStateM.run (do
      other.topologicalOperations.forM fun (_, r) =>
        discard <| addOperation r.operation
          (r.quantumWires.map (mapWire (order?.getD (c.defaultOrder other))))
          (r.classicalWires.map (mapWire (order?.getD (c.defaultOrder other))))
      modify fun c => c.setGlobalPhase (c.globalPhase + other.globalPhase)) c := by
  rw [append, EStateM.run_bind, EStateM.run_get]
  simp only
  rw [EStateM.run_bind, require_run, valid]

theorem append_refused {other : Circuit} {order? : Option (List WireId)} {cause : ValidationError}
    (refused : c.validateOrder other (order?.getD (c.defaultOrder other)) = .error cause) :
    (append other order?).run c = .error (.validation cause) c := by
  rw [append, EStateM.run_bind, EStateM.run_get]
  simp only
  rw [EStateM.run_bind, require_run, refused]

theorem LaidOut.append (laid : c.LaidOut) (other : Circuit) (order? : Option (List WireId)) :
    ((append other order?).after c).LaidOut := by
  cases valid : c.validateOrder other (order?.getD (c.defaultOrder other)) with
  | error cause =>
      rw [Edit.after, append_refused valid]
      exact laid
  | ok _ =>
      rw [Edit.after, append_run valid]
      refine Edit.keeps_forM ?_ (fun c laid => laid.setGlobalPhase _) _ laid
      intro c op laid
      rw [Edit.after_discard]
      exact laid.addOperation ..

/-! ## Changes -/

/-- A change of a circuit with its arguments. -/
inductive Change where
  | addQubit
  | addClbit
  | addOperation (op : Operation) (qubits clbits : List WireId)
  | insertOperation (op : Operation) (before : List VertexId) (qubits clbits : List WireId)
  | removeOperation (v : VertexId)
  | removeBlock (vs : List VertexId) (map? : Option VertexMap)
  | compact
  | append (other : Circuit) (order? : Option (List WireId))
  | setParam (v : VertexId) (position : Nat) (p : Param)
  | bindSymbol (name : String) (number : Binary64)
  | setGlobalPhase (phase : Binary64)

/-- The circuit after a change, whether it succeeds or fails. -/
def Change.after (c : Circuit) : Change → Circuit
  | addQubit => Circuit.addQubit.after c
  | addClbit => Circuit.addClbit.after c
  | addOperation op qubits clbits => (Circuit.addOperation op qubits clbits).after c
  | insertOperation op before qubits clbits =>
      (Circuit.insertOperation op before qubits clbits).after c
  | removeOperation v => (Circuit.removeOperation v).after c
  | removeBlock vs map? => (Circuit.removeBlock vs map?).after c
  | compact => Circuit.compact.after c
  | append other order? => (Circuit.append other order?).after c
  | setParam v position p => (Circuit.setParam v position p).after c
  | bindSymbol name number => (Circuit.bindSymbol name number).after c
  | setGlobalPhase phase => c.setGlobalPhase phase

/-- The circuits that arise from circuits without operations by any changes. -/
inductive Reachable : Circuit → Prop where
  | blank (numQubits numClbits : Nat) (phase : Binary64) :
      Reachable (Circuit.blank numQubits numClbits phase)
  | change {c : Circuit} (before : Reachable c) (change : Change) : Reachable (change.after c)

theorem LaidOut.change (laid : c.LaidOut) (change : Change) : (change.after c).LaidOut := by
  cases change with
  | addQubit => exact laid.addQubit
  | addClbit => exact laid.addClbit
  | addOperation op qubits clbits => exact laid.addOperation op qubits clbits
  | insertOperation op before qubits clbits => exact laid.insertOperation op before qubits clbits
  | removeOperation v => exact laid.removeOperation v
  | removeBlock vs map? => exact laid.removeBlock vs map?
  | compact => exact laid.compact
  | append other order? => exact laid.append other order?
  | setParam v position p => exact laid.setParam v position p
  | bindSymbol name number => exact laid.bindSymbol name number
  | setGlobalPhase phase => exact laid.setGlobalPhase phase

theorem Reachable.laidOut (reachable : c.Reachable) : c.LaidOut := by
  induction reachable with
  | blank numQubits numClbits phase => exact laidOut_blank numQubits numClbits phase
  | change _ change ih => exact ih.change change

/-- Every reachable circuit is well formed, and its count of removed vertices is right. -/
theorem wellFormed_of_reachable (reachable : c.Reachable) :
    c.WellFormed ∧ c.numRemoved = c.records.numTombstones := by
  obtain ⟨line, layout⟩ := reachable.laidOut
  exact ⟨layout.wellFormed, layout.numRemoved⟩

/-- A Hadamard gate that is added and removed again, and an input that cannot be removed. -/
theorem wellFormed_added_and_removed :
    let c := Change.after (Change.after (Change.after (blank 1 1 Binary64.zero)
      (.addOperation { element := .h } [0] [])) (.removeOperation 4)) (.removeOperation 0)
    c.WellFormed ∧ c.numRemoved = c.records.numTombstones :=
  wellFormed_of_reachable
    (((Reachable.blank 1 1 Binary64.zero).change (.addOperation { element := .h } [0] [])).change
      (.removeOperation 4) |>.change (.removeOperation 0))

end Circuit

end CircuitDag
