import CircuitDag.Proofs.Pass.FixedPoint

/-!
# Removing pairs one by one

A reduction removes pairs that cancel one after the other, each from what the removals before it
have left. Sweeps and passes are reductions, and every reduction comes to an end.
-/

set_option autoImplicit false

namespace CircuitDag

open Circuit

/-- Pairs are removed one after the other, each of which cancels when its turn comes. -/
inductive Reduces (accept : Element → Bool) :
    Circuit → List (VertexId × VertexId) → Circuit → Prop where
  | refl (c : Circuit) : Reduces accept c [] c
  | step {c c' d : Circuit} {v u : VertexId} {pairs : List (VertexId × VertexId)}
      (cancellable : c.Cancellable accept v u) (run : (removeBlock [v, u]).run c = .ok () c')
      (rest : Reduces accept c' pairs d) : Reduces accept c ((v, u) :: pairs) d

variable {c d e : Circuit} {line : WireId → List VertexId} {accept accept' : Element → Bool}
  {pairs pairs' : List (VertexId × VertexId)} {v u : VertexId}

theorem Reduces.trans (first : Reduces accept c pairs d) (second : Reduces accept d pairs' e) :
    Reduces accept c (pairs ++ pairs') e := by
  induction first with
  | refl => exact second
  | step cancellable run _ ih => exact .step cancellable run (ih second)

theorem Circuit.Cancellable.mono (wider : ∀ e, accept e = true → accept' e = true)
    (cancellable : c.Cancellable accept v u) : c.Cancellable accept' v u := by
  obtain ⟨r, s, live, operation, accepted, same⟩ := cancellable
  exact ⟨r, s, live, operation, wider _ accepted, same⟩

theorem Reduces.mono (wider : ∀ e, accept e = true → accept' e = true)
    (reduces : Reduces accept c pairs d) : Reduces accept' c pairs d := by
  induction reduces with
  | refl => exact .refl _
  | step cancellable run _ ih => exact .step (cancellable.mono wider) run ih

theorem Reduces.reachable (reduces : Reduces accept c pairs d) (reachable : c.Reachable) :
    d.Reachable := by
  induction reduces with
  | refl => exact reachable
  | @step c c' _ v u _ _ run _ ih =>
      apply ih
      rw [← Edit.after_eq_of_run run]
      exact reachable.change (.removeBlock [v, u] none)

/-- A reduction takes out the vertices of its pairs and changes nothing else. -/
theorem Circuit.Layout.reduced (layout : c.Layout line) (reduces : Reduces accept c pairs d) :
    c.Without line (pairVertices pairs) d := by
  induction reduces generalizing line with
  | refl => exact layout.without_nil
  | step cancellable run _ ih =>
      obtain ⟨r, s, twins⟩ := layout.cancellable_iff.mp cancellable
      obtain ⟨c', removed, without⟩ := layout.removePair twins
      cases run.symm.trans removed
      exact without.trans (ih without.layout)

theorem Circuit.LaidOut.reduced (laid : c.LaidOut) (reduces : Reduces accept c pairs d) :
    d.LaidOut := by
  obtain ⟨line, layout⟩ := laid
  exact ⟨_, (layout.reduced reduces).layout⟩

theorem Circuit.LaidOut.length_le_of_reduces (laid : c.LaidOut)
    (reduces : Reduces accept c pairs d) : 2 * pairs.length ≤ c.numVertices := by
  have limit := (laid.reduced reduces).numRemoved_le
  obtain ⟨line, layout⟩ := laid
  have without := layout.reduced reduces
  rw [without.numRemoved, without.size, length_pairVertices] at limit
  exact Nat.le_sub_of_add_le' limit

theorem Circuit.Layout.reduces_removePairs (layout : c.Layout line)
    (cancellable : ∀ v u, (v, u) ∈ pairs → c.Cancellable accept v u)
    (unique : (pairVertices pairs).Nodup) (run : (CircuitDag.removePairs pairs).run c = .ok () d) :
    Reduces accept c pairs d := by
  induction pairs generalizing c line with
  | nil =>
      cases run
      exact .refl _
  | cons pair pairs ih =>
      obtain ⟨v, u⟩ := pair
      obtain ⟨-, -, c', -, first, without, later, rest⟩ := layout.removeFirst cancellable unique
      rw [removePairs_cons_run first] at run
      exact .step (cancellable v u List.mem_cons_self) first (ih without.layout later rest run)

theorem Circuit.LaidOut.reduces_sweepOnce (laid : c.LaidOut) (accept : Element → Bool) :
    Reduces accept c (c.cancellablePairs accept) (sweepOnce accept c) := by
  obtain ⟨line, layout⟩ := laid
  obtain ⟨cancellable, unique, -⟩ := layout.cancellablePairs_spec accept
  exact layout.reduces_removePairs cancellable unique (layout.swept accept).1

theorem Circuit.LaidOut.reduces_iterate (laid : c.LaidOut) (accept : Element → Bool) (k : Nat) :
    ∃ pairs, Reduces accept c pairs ((sweepOnce accept)^[k] c) := by
  induction k generalizing c with
  | zero => exact ⟨[], .refl c⟩
  | succ k ih =>
      obtain ⟨pairs, rest⟩ := ih (laid.swept accept)
      exact ⟨_, (laid.reduces_sweepOnce accept).trans rest⟩

theorem Cancels.isInvolution {pass : Pass} (cancels : Cancels pass accept) (e : Element)
    (accepted : accept e = true) : e.isInvolution = true := by
  cases cancels with
  | cx =>
      obtain rfl := of_decide_eq_true accepted
      rfl
  | involutions => exact accepted

/-- A pass is a reduction, and it adds the number of pairs that it has removed and the number of its
sweeps to the statistics. Where that gives no machine words, a build that does not wrap around
panics. -/
theorem Cancels.run_counted {pass : Pass} (cancels : Cancels pass accept) {s : Compilation}
    (laid : s.circuit.LaidOut) : ∃ c' pairs sweeps, Reduces accept s.circuit pairs c' ∧
      sweeps ≤ maxSweeps ∧
      (∀ rule, rule = .wrap ∨ s.properties.HasRoom pairs.length sweeps →
        (pass.run rule).run s = .ok ()
          { circuit := c'
            properties := s.properties.addCancellation (.ofCounts pairs.length sweeps) }) ∧
      (s.circuit.numVertices < UInt64.size → ¬ s.properties.HasRoom pairs.length sweeps →
        ∃ s', (pass.run .panic).run s = .error .panic s' ∧ s'.circuit = c') := by
  obtain ⟨k, settles⟩ := laid.exists_settlesAfter accept
  obtain ⟨numPairs, run, removed⟩ := settles.pass_run_eq cancels laid
  obtain ⟨pairs, reduces⟩ := laid.reduces_iterate accept (min k maxSweeps)
  obtain rfl : numPairs = pairs.length := by
    obtain ⟨line, layout⟩ := laid
    have without := (layout.reduced reduces).numRemoved
    rw [removed, length_pairVertices] at without
    omega
  have few : min (k + 1) maxSweeps ≤ maxSweeps := Nat.min_le_right _ _
  refine ⟨_, pairs, min (k + 1) maxSweeps, reduces, few, fun rule added => ?_, fun small full => ?_⟩
  · rw [run]
    exact recordCancellation_run (added.imp_right Properties.HasRoom.ofCounts)
  · have half := laid.length_le_of_reduces reduces
    have pairsWord : pairs.length < UInt64.size := by omega
    have words := CancellationStats.toNat_ofCounts pairsWord (few.trans_lt (by decide))
    rw [run]
    exact recordCancellation_panics (by rwa [words.1, words.2])

/-- In every build, a pass comes to the end of a reduction. -/
theorem Cancels.ends {pass : Pass} (cancels : Cancels pass accept) {s : Compilation}
    (laid : s.circuit.LaidOut) (rule : OverflowRule) : ∃ s' pairs,
      EndsIn rule (pass.run rule) s s' ∧ Reduces accept s.circuit pairs s'.circuit := by
  obtain ⟨k, settles⟩ := laid.exists_settlesAfter accept
  obtain ⟨numPairs, run, -⟩ := settles.pass_run_eq cancels laid
  obtain ⟨pairs, reduces⟩ := laid.reduces_iterate accept (min k maxSweeps)
  obtain ⟨s', ends, same⟩ := recordCancellation_ends rule
    (.ofCounts numPairs (min (k + 1) maxSweeps))
    { s with circuit := (sweepOnce accept)^[min k maxSweeps] s.circuit }
  rw [EndsIn, ← run rule] at ends
  refine ⟨s', pairs, ends, ?_⟩
  rw [same]
  exact reduces

theorem Cancels.reduces {pass : Pass} (cancels : Cancels pass accept) {s : Compilation}
    (laid : s.circuit.LaidOut) : ∃ s' pairs, pass.run.run s = .ok () s' ∧
      Reduces accept s.circuit pairs s'.circuit := by
  obtain ⟨c', pairs, sweeps, reduces, -, run, -⟩ := cancels.run_counted laid
  exact ⟨_, pairs, run .wrap (.inl rfl), reduces⟩

end CircuitDag
