import CircuitDag.Proofs.Pass.Preservation
import Mathlib.Logic.Function.Iterate

/-!
# How far cancellation gets

Repeated sweeps come to a circuit in which no pair cancels, since every sweep that finds something
leaves fewer operations. A pass does these sweeps up to its largest number of sweeps, so it gets
there exactly if no more sweeps than that find something.
-/

set_option autoImplicit false

namespace CircuitDag

open Circuit

variable {c : Circuit} {accept : Element → Bool}

/-- No pair of the circuit cancels. -/
def Circuit.Settled (c : Circuit) (accept : Element → Bool) : Prop :=
  ∀ v u, ¬ c.Cancellable accept v u

/-- Exactly `k` sweeps in a row find something. -/
structure SettlesAfter (c : Circuit) (accept : Element → Bool) (k : Nat) : Prop where
  settled : ((sweepOnce accept)^[k] c).Settled accept
  unsettled : ∀ j, j < k → ¬ ((sweepOnce accept)^[j] c).Settled accept

theorem Circuit.LaidOut.settled_iff (laid : c.LaidOut) (accept : Element → Bool) :
    c.Settled accept ↔ c.cancellablePairs accept = [] := by
  obtain ⟨line, layout⟩ := laid
  exact (layout.cancellablePairs_spec accept).2.2.symm

theorem settlesAfter_succ_iff {k : Nat} (unsettled : ¬ c.Settled accept) :
    SettlesAfter c accept (k + 1) ↔ SettlesAfter (sweepOnce accept c) accept k := by
  constructor
  · intro given
    obtain ⟨settled, before⟩ := given
    exact ⟨settled, fun j bound => before (j + 1) (Nat.succ_lt_succ bound)⟩
  · intro given
    obtain ⟨settled, before⟩ := given
    refine ⟨settled, fun j bound => ?_⟩
    cases j with
    | zero => exact unsettled
    | succ j => exact before j (Nat.lt_of_succ_lt_succ bound)

/-! ## Termination -/

theorem Circuit.LaidOut.numRemoved_le (laid : c.LaidOut) : c.numRemoved ≤ c.records.size := by
  obtain ⟨line, layout⟩ := laid
  rw [layout.numRemoved, Records.numTombstones]
  exact List.countP_le_length.trans (List.length_range ..).le

theorem Circuit.LaidOut.numRemoved_sweepOnce (laid : c.LaidOut) (accept : Element → Bool) :
    (sweepOnce accept c).numRemoved =
        c.numRemoved + 2 * (c.cancellablePairs accept).length ∧
      (sweepOnce accept c).records.size = c.records.size := by
  obtain ⟨line, layout⟩ := laid
  have without := (layout.swept accept).2
  rw [without.numRemoved, length_pairVertices]
  exact ⟨rfl, without.size⟩

/-- Some number of sweeps leaves a circuit in which no pair cancels. -/
theorem Circuit.LaidOut.exists_settlesAfter (laid : c.LaidOut) (accept : Element → Bool) :
    ∃ k, SettlesAfter c accept k := by
  induction bound : c.records.size - c.numRemoved using Nat.strong_induction_on generalizing c with
  | _ bound ih =>
      by_cases settled : c.Settled accept
      · exact ⟨0, settled, fun j impossible => absurd impossible (Nat.not_lt_zero j)⟩
      · obtain ⟨removed, size⟩ := laid.numRemoved_sweepOnce accept
        have next := laid.swept accept
        have some : 0 < (c.cancellablePairs accept).length := by
          rw [List.length_pos_iff]
          exact fun none => settled ((laid.settled_iff accept).mpr none)
        have limit := next.numRemoved_le
        obtain ⟨k, settles⟩ := ih _ (by omega) next rfl
        exact ⟨k + 1, (settlesAfter_succ_iff settled).mpr settles⟩

/-! ## What a pass does -/

/-- As many sweeps are done as find something, and one more, up to the limit. -/
theorem SettlesAfter.sweep_run (laid : c.LaidOut) {k : Nat} (settles : SettlesAfter c accept k)
    (fuel : Nat) (stats : CancellationStats) :
    ∃ pairs, (sweep accept fuel stats).run c =
        .ok (stats.add (.ofCounts pairs (min (k + 1) fuel)))
          ((sweepOnce accept)^[min k fuel] c) ∧
      ((sweepOnce accept)^[min k fuel] c).numRemoved = c.numRemoved + 2 * pairs := by
  induction fuel generalizing c k stats with
  | zero => exact ⟨0, by simp [sweep, CancellationStats.add, CancellationStats.ofCounts], by simp⟩
  | succ fuel ih =>
      rw [laid.sweep_run]
      by_cases settled : c.Settled accept
      · have none := (laid.settled_iff accept).mp settled
        have first : k = 0 := by
          cases k with
          | zero => rfl
          | succ k => exact absurd settled (settles.unsettled 0 (Nat.succ_pos k))
        subst first
        refine ⟨0, ?_, by simp⟩
        rw [if_pos none]
        simp [CancellationStats.add, CancellationStats.ofCounts]
      · have some : c.cancellablePairs accept ≠ [] :=
          fun none => settled ((laid.settled_iff accept).mpr none)
        rw [if_neg some]
        cases k with
        | zero => exact absurd settles.settled settled
        | succ k =>
            have rest := (settlesAfter_succ_iff settled).mp settles
            obtain ⟨pairs, run, removed⟩ := ih (laid.swept accept) rest
              ⟨stats.pairs + .ofNat (c.cancellablePairs accept).length, stats.sweeps + 1⟩
            refine ⟨(c.cancellablePairs accept).length + pairs, ?_, ?_⟩
            · rw [run, Nat.succ_min_succ, Nat.succ_min_succ, Function.iterate_succ_apply,
                CancellationStats.add_ofCounts_succ]
            · rw [Nat.succ_min_succ, Function.iterate_succ_apply, removed,
                (laid.numRemoved_sweepOnce accept).1]
              omega

/-- A pass that cancels, with the elements that it accepts. -/
inductive Cancels : Pass → (Element → Bool) → Prop where
  | cx : Cancels .cancelCX (· = .cx)
  | involutions : Cancels .cancelInvolutions Element.isInvolution

theorem Cancels.run_eq {pass : Pass} (cancels : Cancels pass accept) (rule : OverflowRule) :
    pass.run rule = cancelPairs accept rule := by
  cases cancels <;> rfl

/-- After the sweeps of a pass only the statistics are left to add. -/
theorem SettlesAfter.pass_run_eq {pass : Pass} (cancels : Cancels pass accept) {s : Compilation}
    (laid : s.circuit.LaidOut) {k : Nat} (settles : SettlesAfter s.circuit accept k) :
    ∃ pairs, (∀ rule, (pass.run rule).run s =
        (recordCancellation rule (.ofCounts pairs (min (k + 1) maxSweeps))).run
          { s with circuit := (sweepOnce accept)^[min k maxSweeps] s.circuit }) ∧
      ((sweepOnce accept)^[min k maxSweeps] s.circuit).numRemoved =
        s.circuit.numRemoved + 2 * pairs := by
  obtain ⟨pairs, run, removed⟩ := settles.sweep_run laid maxSweeps {}
  rw [CancellationStats.zero_add] at run
  exact ⟨pairs, fun rule => cancels.run_eq rule ▸ cancelPairs_run_eq rule run, removed⟩

theorem SettlesAfter.pass_run {pass : Pass} (cancels : Cancels pass accept) {s : Compilation}
    (laid : s.circuit.LaidOut) {k : Nat} (settles : SettlesAfter s.circuit accept k) :
    ∃ pairs, pass.run.run s = .ok ()
        { circuit := (sweepOnce accept)^[min k maxSweeps] s.circuit
          properties := s.properties.addCancellation (.ofCounts pairs (min (k + 1) maxSweeps)) } ∧
      ((sweepOnce accept)^[min k maxSweeps] s.circuit).numRemoved =
        s.circuit.numRemoved + 2 * pairs := by
  obtain ⟨pairs, run, removed⟩ := settles.pass_run_eq cancels laid
  exact ⟨pairs, (run .wrap).trans (recordCancellation_run (.inl rfl)), removed⟩

theorem SettlesAfter.settled_iff {k : Nat} (settles : SettlesAfter c accept k) (limit : Nat) :
    ((sweepOnce accept)^[min k limit] c).Settled accept ↔ k ≤ limit := by
  rcases Nat.lt_or_ge limit k with more | enough
  · rw [Nat.min_eq_right more.le]
    exact iff_of_false (settles.unsettled limit more) (Nat.not_le_of_lt more)
  · rw [Nat.min_eq_left enough]
    exact iff_of_true settles.settled enough

theorem Circuit.LaidOut.iterate_sweepOnce (laid : c.LaidOut) (accept : Element → Bool) (k : Nat) :
    ((sweepOnce accept)^[k] c).LaidOut := by
  induction k generalizing c with
  | zero => exact laid
  | succ k ih => exact ih (laid.swept accept)

/-- A pass does the sweeps that find something up to its limit. In what it leaves, no pair cancels
exactly if no more sweeps than that find something; then the same pass removes no pair from it and
leaves it as it is. -/
theorem settled_after_cancellation {pass : Pass} (cancels : Cancels pass accept) {s : Compilation}
    (reachable : s.circuit.Reachable) :
    ∃ k, SettlesAfter s.circuit accept k ∧ ∃ s', pass.run.run s = .ok () s' ∧
      s'.circuit = (sweepOnce accept)^[min k maxSweeps] s.circuit ∧
      (s'.circuit.Settled accept ↔ k ≤ maxSweeps) ∧
      (k ≤ maxSweeps → ∃ s'', pass.run.run s' = .ok () s'' ∧ s''.circuit = s'.circuit ∧
        s''.properties = s'.properties.addCancellation ⟨0, 1⟩) := by
  have laid := reachable.laidOut
  obtain ⟨k, settles⟩ := laid.exists_settlesAfter accept
  obtain ⟨pairs, run, -⟩ := settles.pass_run cancels laid
  refine ⟨k, settles, _, run, rfl, settles.settled_iff maxSweeps, fun enough => ?_⟩
  have still : SettlesAfter ((sweepOnce accept)^[min k maxSweeps] s.circuit) accept 0 :=
    ⟨(settles.settled_iff maxSweeps).mpr enough, fun j bound => absurd bound (Nat.not_lt_zero j)⟩
  have next : ((sweepOnce accept)^[min k maxSweeps] s.circuit).LaidOut :=
    laid.iterate_sweepOnce accept _
  obtain ⟨none, again, removed⟩ := still.pass_run (s := { s with
    circuit := (sweepOnce accept)^[min k maxSweeps] s.circuit
    properties := s.properties.addCancellation (.ofCounts pairs (min (k + 1) maxSweeps)) })
    cancels next
  have nothing : none = 0 := by
    simp only [Nat.zero_min, Function.iterate_zero_apply] at removed
    omega
  subst nothing
  exact ⟨_, again, rfl, rfl⟩

theorem settled_after_cancelInvolutions_doubleCX :
    ∃ k, SettlesAfter doubleCX Element.isInvolution k ∧
      ∃ s', Pass.cancelInvolutions.run.run { circuit := doubleCX } = .ok () s' ∧
      s'.circuit = (sweepOnce Element.isInvolution)^[min k maxSweeps] doubleCX ∧
      (s'.circuit.Settled Element.isInvolution ↔ k ≤ maxSweeps) ∧
      (k ≤ maxSweeps → ∃ s'', Pass.cancelInvolutions.run.run s' = .ok () s'' ∧
        s''.circuit = s'.circuit ∧
        s''.properties = s'.properties.addCancellation ⟨0, 1⟩) :=
  settled_after_cancellation .involutions (s := { circuit := doubleCX }) reachable_doubleCX

end CircuitDag
