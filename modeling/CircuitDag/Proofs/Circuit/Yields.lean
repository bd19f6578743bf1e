import CircuitDag.Proofs.Circuit.Reachable

/-!
# What edits yield

An edit either fails and hands back the circuit that it was given, or it does all of its work. What
a successful edit makes of the circuit is told here for each edit.
-/

set_option autoImplicit false

namespace CircuitDag

/-- On a circuit an edit either fails and leaves it as it is, or it succeeds with a result and a
circuit of some kind. -/
def Edit.Yields {α : Type} (edit : Edit α) (c : Circuit) (done : α → Circuit → Prop) : Prop :=
  (∃ cause, edit.run c = .error cause c) ∨ ∃ a c', edit.run c = .ok a c' ∧ done a c'

/-- An edit that fails on a circuit hands it back as it was. -/
def Edit.Atomic {α : Type} (edit : Edit α) (c : Circuit) : Prop :=
  ∀ cause c', edit.run c = .error cause c' → c' = c

section Yields

variable {α : Type} {edit : Edit α} {c : Circuit} {done : α → Circuit → Prop}

theorem Edit.Yields.atomic (yields : edit.Yields c done) : edit.Atomic c := by
  intro cause c' failed
  rcases yields with ⟨cause', run⟩ | ⟨a, c'', run, -⟩
  · cases run.symm.trans failed
    rfl
  · cases run.symm.trans failed

/-- What holds before an edit and of whatever it makes holds after it. -/
theorem Edit.Yields.after (keeps : Circuit → Prop) (yields : edit.Yields c done)
    (before : keeps c) (made : ∀ a c', done a c' → keeps c') : keeps (edit.after c) := by
  rcases yields with ⟨cause, run⟩ | ⟨a, c', run, yielded⟩
  · rw [Edit.after, run]
    exact before
  · rw [Edit.after, run]
    exact made a c' yielded

end Yields

namespace Circuit

variable {c : Circuit}

theorem addQubit_yields (c : Circuit) : addQubit.Yields c fun _ c' =>
    c' = ({ c with numQubits := c.numQubits + 1 } : Circuit).openWires [c.numQubits] := by
  by_cases classical : 0 < c.numClbits
  · refine .inl ⟨.validation (.classicalWiresPresent c.numClbits), ?_⟩
    simp only [addQubit, EStateM.run_bind, EStateM.run_get, classical, ↓reduceIte, run_throw]
  · refine .inr ⟨c.numQubits, _, ?_, rfl⟩
    simp only [addQubit, EStateM.run_bind, EStateM.run_get, classical, ↓reduceIte,
      EStateM.run_set, EStateM.run_pure]
    rfl

theorem addOperation_yields (c : Circuit) (op : Operation) (qubits clbits : List WireId) :
    (addOperation op qubits clbits).Yields c fun _ c' => c.Accepts op qubits clbits ∧
      c' = c.place op qubits clbits (c.outputPorts (qubits ++ clbits)) := by
  rw [Edit.Yields, addOperation_run]
  cases valid : c.validate op qubits clbits with
  | error cause => exact .inl ⟨_, rfl⟩
  | ok _ => exact .inr ⟨_, _, rfl, validate_eq_ok_iff.mp valid, rfl⟩

theorem insertOperation_yields (c : Circuit) (op : Operation) (before : List VertexId)
    (qubits clbits : List WireId) :
    (insertOperation op before qubits clbits).Yields c fun _ c' => c.Accepts op qubits clbits ∧
      ∃ successors, c' = c.place op qubits clbits successors := by
  rw [Edit.Yields, insertOperation_run]
  cases valid : c.validate op qubits clbits with
  | error cause => exact .inl ⟨_, rfl⟩
  | ok _ =>
      simp only
      split
      · exact .inl ⟨_, rfl⟩
      · split
        · exact .inl ⟨_, rfl⟩
        · split
          · exact .inl ⟨_, rfl⟩
          · exact .inr ⟨_, _, rfl, validate_eq_ok_iff.mp valid, _, rfl⟩

theorem LaidOut.removeOperation_yields (laid : c.LaidOut) (v : VertexId) :
    (Circuit.removeOperation v).Yields c fun op c' => ∃ r, c.records.Live v r ∧
      r.isAnchor = false ∧ op = r.operation ∧ c' = c.excise [v] r.passages := by
  obtain ⟨line, layout⟩ := laid
  cases removable : c.checkRemovable v with
  | error cause =>
      refine .inl ⟨cause, ?_⟩
      simp only [Circuit.removeOperation, EStateM.run_bind, EStateM.run_get, liftResult_run,
        removable]
  | ok r =>
      obtain ⟨live, operation⟩ := checkRemovable_eq_ok_iff.mp removable
      exact .inr ⟨_, _, layout.removeOperation_run live operation, r, live, operation, rfl, rfl⟩

theorem removeBlock_yields (c : Circuit) (vs : List VertexId) (map? : Option VertexMap) :
    (removeBlock vs map?).Yields c fun _ c' =>
      c' = c ∨ ∃ block passages, c' = c.excise block passages := by
  cases run : (removeBlock vs map?).run c with
  | error cause c' => exact .inl ⟨cause, eq_of_removeBlock_error run ▸ run⟩
  | ok _ c' =>
      refine .inr ⟨(), c', run, ?_⟩
      obtain ⟨block, -, ⟨-, rfl⟩ | ⟨first, last, boundary, -, -, -, rfl⟩⟩ :=
        removeBlock_eq_ok_iff.mp run
      · exact .inl rfl
      · exact .inr ⟨block, boundary.passages, rfl⟩

theorem setParam_yields (c : Circuit) (v : VertexId) (position : Nat) (p : Param) :
    (setParam v position p).Yields c fun old c' => c' = c.rebind ⟨v, position⟩ old p := by
  simp only [Edit.Yields, setParam, EStateM.run_bind, EStateM.run_get]
  split
  · exact .inl ⟨_, rfl⟩
  · next old _ => exact .inr ⟨old, _, rfl, rfl⟩

end Circuit

end CircuitDag
