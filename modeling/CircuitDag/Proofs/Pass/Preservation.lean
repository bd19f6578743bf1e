import CircuitDag.Proofs.Circuit.Decision
import CircuitDag.Proofs.Circuit.Reachable
import CircuitDag.Proofs.Pass.Statistics
import CircuitDag.Proofs.Pass.Sweeps

/-!
# Passes keep the meaning

Every pass succeeds on a reachable circuit and leaves a circuit with the same meaning, whatever the
operations stand for, and however many sweeps are done.
-/

set_option autoImplicit false

namespace CircuitDag

open Circuit

variable {c : Circuit} {accept : Element → Bool} {M : Type*} [Monoid M]

theorem Compile.edit_run {α : Type} (change : Edit α) (s : Compilation) :
    (Compile.edit change).run s = match change.run s.circuit with
      | .ok a circuit => .ok a { s with circuit }
      | .error cause circuit => .error (.error (.circuit cause)) { s with circuit } := by
  simp only [Compile.edit, EStateM.run_bind, EStateM.run_get]
  cases change.run s.circuit <;>
    simp only [EStateM.run_bind, EStateM.run_set, EStateM.run_pure, run_throw]

/-- After the sweeps only the statistics are left to add, which is where builds differ. -/
theorem cancelPairs_run_eq {s : Compilation} {stats : CancellationStats} {c' : Circuit}
    (rule : OverflowRule) (run : (sweep accept maxSweeps {}).run s.circuit = .ok stats c') :
    (cancelPairs accept rule).run s =
      (recordCancellation rule stats).run { s with circuit := c' } := by
  simp only [cancelPairs, EStateM.run_bind, Compile.edit_run, run]

theorem cancelPairs_run {s : Compilation} {stats : CancellationStats} {c' : Circuit}
    (run : (sweep accept maxSweeps {}).run s.circuit = .ok stats c') :
    (cancelPairs accept).run s =
      .ok () { circuit := c', properties := s.properties.addCancellation stats } :=
  (cancelPairs_run_eq .wrap run).trans (recordCancellation_run (.inl rfl))

theorem compactVertices_run (s : Compilation) (rule : OverflowRule := .wrap) :
    (Pass.compactVertices.run rule).run s = .ok () { circuit := s.circuit.compacted
                                                     properties := { s.properties with
      vertexMap? := some (VertexMap.ofRecords s.circuit.records) } } := by
  simp only [Pass.run, EStateM.run_bind, Compile.edit_run, compact_run, Compile.record_run]

theorem circuitAnalysis_run (s : Compilation) (rule : OverflowRule := .wrap) :
    (Pass.circuitAnalysis.run rule).run s = .ok () { s with properties := { s.properties with
      metrics? := some (CircuitMetrics.ofCircuit s.circuit) } } := by
  simp only [Pass.run, EStateM.run_bind, EStateM.run_get, Compile.record_run]

theorem integrityVerification_run {s : Compilation} (checked : s.circuit.check = .ok ())
    (rule : OverflowRule := .wrap) :
    (Pass.integrityVerification.run rule).run s = .ok () { s with properties := { s.properties with
      verification? := some ⟨true, s.circuit.numVertices, s.circuit.numEdges⟩ } } := by
  simp only [Pass.run, Pass.verify, EStateM.run_bind, EStateM.run_get, checked,
    Compile.record_run, EStateM.run_pure, Except.isOk, Except.toBool]

/-- Sweeps succeed, keep the invariant and keep the meaning. -/
theorem Circuit.LaidOut.sweep_meaning (I : Interpretation M) (laid : c.LaidOut)
    (involutions : ∀ e, accept e = true → e.isInvolution = true) (fuel : Nat)
    (stats : CancellationStats) :
    ∃ stats' c', (sweep accept fuel stats).run c = .ok stats' c' ∧
      I.meaning c' = I.meaning c := by
  induction fuel generalizing c stats with
  | zero => exact ⟨stats, c, rfl, rfl⟩
  | succ fuel ih =>
      rw [laid.sweep_run]
      split
      · exact ⟨_, c, rfl, rfl⟩
      · obtain ⟨stats', c', run, same⟩ := ih (laid.swept accept)
          ⟨stats.pairs + .ofNat (c.cancellablePairs accept).length, stats.sweeps + 1⟩
        obtain ⟨line, layout⟩ := laid
        exact ⟨stats', c', run, same.trans (layout.meaning_sweepOnce I involutions)⟩

theorem Circuit.LaidOut.cancelPairs_meaning (I : Interpretation M) {s : Compilation}
    (laid : s.circuit.LaidOut) (involutions : ∀ e, accept e = true → e.isInvolution = true) :
    ∃ s', (cancelPairs accept).run s = .ok () s' ∧
      I.meaning s'.circuit = I.meaning s.circuit := by
  obtain ⟨stats, c', run, same⟩ := laid.sweep_meaning I involutions maxSweeps {}
  exact ⟨_, cancelPairs_run run, same⟩

/-- Passes on reachable circuits succeed and keep the meaning, as do any number of sweeps that
cancel elements which undo themselves. -/
theorem meaning_after_passes (I : Interpretation M) {s : Compilation}
    (reachable : s.circuit.Reachable) :
    (∀ pass : Pass, ∃ s', pass.run.run s = .ok () s' ∧
      I.meaning s'.circuit = I.meaning s.circuit) ∧
    ∀ accept : Element → Bool, (∀ e, accept e = true → e.isInvolution = true) →
      ∀ fuel stats, ∃ stats' c', (sweep accept fuel stats).run s.circuit = .ok stats' c' ∧
        I.meaning c' = I.meaning s.circuit := by
  have laid := reachable.laidOut
  constructor
  · intro pass
    cases pass with
    | cancelCX =>
        refine laid.cancelPairs_meaning I fun e accepted => ?_
        obtain rfl : e = .cx := of_decide_eq_true accepted
        rfl
    | cancelInvolutions => exact laid.cancelPairs_meaning I fun _ accepted => accepted
    | compactVertices =>
        obtain ⟨line, layout⟩ := laid
        exact ⟨_, compactVertices_run s, layout.meaning_compacted I⟩
    | circuitAnalysis => exact ⟨_, circuitAnalysis_run s, rfl⟩
    | integrityVerification =>
        exact ⟨_, integrityVerification_run laid.check_eq_ok, rfl⟩
  · intro accept involutions fuel stats
    obtain ⟨stats', c', run, same⟩ := laid.sweep_meaning I involutions fuel stats
    exact ⟨stats', c', run, same⟩

/-- Counts the elements that undo themselves, modulo two. -/
def parity : Interpretation Int where
  act e _ _ := if e.isInvolution then -1 else 1
  commute _ _ _ _ _ _ _ := Commute.all _ _
  square e _ _ involution := by simp [involution]

def doubleCX : Circuit :=
  Change.after (Change.after (blank 2 0 Binary64.zero)
    (.addOperation { element := .cx } [0, 1] [])) (.addOperation { element := .cx } [0, 1] [])

theorem reachable_doubleCX : doubleCX.Reachable :=
  ((Reachable.blank 2 0 Binary64.zero).change (.addOperation { element := .cx } [0, 1] [])).change
    (.addOperation { element := .cx } [0, 1] [])

theorem parity_after_cancelCX_doubleCX :
    ∃ s', Pass.cancelCX.run.run { circuit := doubleCX } = .ok () s' ∧
      parity.meaning s'.circuit = parity.meaning doubleCX :=
  (meaning_after_passes parity (s := { circuit := doubleCX }) reachable_doubleCX).1 .cancelCX

end CircuitDag
