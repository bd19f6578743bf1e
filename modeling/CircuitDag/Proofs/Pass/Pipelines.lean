import CircuitDag.Proofs.Circuit.Measures
import CircuitDag.Proofs.Pass.NormalForm

/-!
# Pipelines

Every pipeline succeeds on a reachable circuit, and a pass that is left out because it has nothing
to do would have kept the labels along the wires. The pipelines of the optimization levels report
the circuit that they leave, and their map of vertices leads to every operation that is left.
-/

set_option autoImplicit false

namespace CircuitDag

open Circuit

variable {s s' : Compilation} {c : Circuit} {line : WireId → List VertexId} {pass : Pass}
  {passes passes' : List Pass} {level : Nat} {rule : OverflowRule}

/-! ## Every pipeline succeeds -/

/-- A pass that has run is noted if it is a transformation. -/
def Pass.noted (pass : Pass) (s : Compilation) : Compilation :=
  if pass.kind = .transformation then
    { s with properties := { s.properties with lastTransformation? := some pass.name } }
  else s

@[simp] theorem Pass.circuit_noted (pass : Pass) (s : Compilation) :
    (pass.noted s).circuit = s.circuit := by
  rw [noted]
  split <;> rfl

theorem Pipeline.runPass_skipped (skipped : ¬ pass.shouldRun s.circuit = true) :
    (runPass pass rule).run s = .ok () s := by
  rw [runPass, EStateM.run_bind, EStateM.run_get]
  simp only [if_neg skipped]
  rfl

theorem Pipeline.runPass_run (run : (pass.run rule).run s = .ok () s') : (runPass pass rule).run s =
    .ok () (if pass.shouldRun s.circuit = true then pass.noted s' else s) := by
  by_cases should : pass.shouldRun s.circuit = true
  · rw [runPass, EStateM.run_bind, EStateM.run_get]
    simp only [if_pos should, EStateM.run_bind, run, Pass.noted]
    by_cases transforms : pass.kind = .transformation
    · rw [if_pos transforms, if_pos transforms, Compile.record_run]
    · rw [if_neg transforms, if_neg transforms, EStateM.run_pure]
  · rw [if_neg should]
    exact runPass_skipped should

theorem Pipeline.run_cons_eq (pass : Pass) (passes : List Pass) (rule : OverflowRule) :
    Pipeline.run (pass :: passes) rule = (do runPass pass rule; Pipeline.run passes rule) := rfl

theorem Pipeline.run_cons (first : (runPass pass rule).run s = .ok () s') :
    (Pipeline.run (pass :: passes) rule).run s = (Pipeline.run passes rule).run s' := by
  rw [run_cons_eq, EStateM.run_bind, first]

/-- A pass succeeds. It removes pairs that cancel, or none, or it compacts the circuit. -/
theorem Pass.run_changes (pass : Pass) (laid : s.circuit.LaidOut) :
    ∃ s', pass.run.run s = .ok () s' ∧
      ((∃ accept pairs, Reduces accept s.circuit pairs s'.circuit) ∨
        s'.circuit = s.circuit.compacted) := by
  have cancelled : ∀ {accept}, Cancels pass accept → ∃ s', pass.run.run s = .ok () s' ∧
      ∃ accept pairs, Reduces accept s.circuit pairs s'.circuit := by
    intro accept cancels
    obtain ⟨s', pairs, run, reduces⟩ := cancels.reduces laid
    exact ⟨s', run, accept, pairs, reduces⟩
  have unchanged : ∃ accept pairs, Reduces accept s.circuit pairs s.circuit :=
    ⟨fun _ => false, [], .refl s.circuit⟩
  cases pass with
  | cancelCX => exact (cancelled .cx).imp fun _ => And.imp_right .inl
  | cancelInvolutions => exact (cancelled .involutions).imp fun _ => And.imp_right .inl
  | compactVertices => exact ⟨_, compactVertices_run s, .inr rfl⟩
  | circuitAnalysis => exact ⟨_, circuitAnalysis_run s, .inl unchanged⟩
  | integrityVerification => exact ⟨_, integrityVerification_run laid.check_eq_ok, .inl unchanged⟩

section Keeps

variable (keeps : Circuit → Prop) (laid : ∀ c, keeps c → c.LaidOut)
  (reduced : ∀ accept c pairs d, Reduces accept c pairs d → keeps c → keeps d)
  (compacted : ∀ c, keeps c → keeps c.compacted)

include laid reduced compacted

theorem Pass.run_keeps (pass : Pass) (holds : keeps s.circuit) :
    ∃ s', pass.run.run s = .ok () s' ∧ keeps s'.circuit := by
  obtain ⟨s', run, ⟨accept, pairs, reduces⟩ | same⟩ := pass.run_changes (laid _ holds)
  · exact ⟨s', run, reduced accept _ pairs _ reduces holds⟩
  · exact ⟨s', run, same ▸ compacted _ holds⟩

/-- Every pipeline succeeds and keeps what reductions and compactions keep. -/
theorem Pipeline.run_keeps (passes : List Pass) (holds : keeps s.circuit) :
    ∃ s', (Pipeline.run passes).run s = .ok () s' ∧ keeps s'.circuit := by
  induction passes generalizing s with
  | nil => exact ⟨s, rfl, holds⟩
  | cons pass passes ih =>
      obtain ⟨s₁, run, kept⟩ := pass.run_keeps keeps laid reduced compacted holds
      have next : keeps (if pass.shouldRun s.circuit = true then pass.noted s₁ else s).circuit := by
        split
        · rw [Pass.circuit_noted]
          exact kept
        · exact holds
      obtain ⟨s₂, rest, kept⟩ := ih next
      exact ⟨s₂, (run_cons (runPass_run run)).trans rest, kept⟩

end Keeps

end CircuitDag
