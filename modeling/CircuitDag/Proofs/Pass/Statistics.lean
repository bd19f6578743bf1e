import CircuitDag.Pass.Pipeline
import CircuitDag.Proofs.Outcomes

/-!
# Adding to the statistics

The statistics of cancellation are machine words. Where the sums are machine words all builds of the
program add them; where they are not, a build takes them modulo the number of words or panics.
-/

set_option autoImplicit false

namespace CircuitDag

variable {p : Properties} {s : Compilation} {stats : CancellationStats} {rule : OverflowRule}
  {pairs sweeps pairs' sweeps' : Nat}

def CancellationStats.ofCounts (pairs sweeps : Nat) : CancellationStats :=
  ⟨.ofNat pairs, .ofNat sweeps⟩

def CancellationStats.add (a b : CancellationStats) : CancellationStats :=
  ⟨a.pairs + b.pairs, a.sweeps + b.sweeps⟩

theorem CancellationStats.zero_add (stats : CancellationStats) :
    CancellationStats.add {} stats = stats := by
  rw [add, UInt64.zero_add, UInt64.zero_add]

/-- One more sweep that removes some pairs, before the others. -/
theorem CancellationStats.add_ofCounts_succ (stats : CancellationStats)
    (pairs pairs' sweeps : Nat) :
    stats.add (.ofCounts (pairs + pairs') (sweeps + 1)) =
      CancellationStats.add ⟨stats.pairs + .ofNat pairs, stats.sweeps + 1⟩
        (.ofCounts pairs' sweeps) := by
  simp only [add, ofCounts, UInt64.ofNat_add, UInt64.add_assoc,
    UInt64.add_comm (.ofNat sweeps)]
  rfl

/-- What is recorded after a run, with sums taken modulo the number of machine words. -/
def Properties.addCancellation (p : Properties) (stats : CancellationStats) : Properties :=
  match p.cancellation? with
  | none => { p with cancellation? := some stats }
  | some total => { p with cancellation? := some (total.add stats) }

/-- What is recorded before a run; nothing counts as zero. -/
def Properties.total (p : Properties) : CancellationStats := p.cancellation?.getD {}

/-- The statistics with so many pairs and sweeps more are machine words. -/
def Properties.HasRoom (p : Properties) (pairs sweeps : Nat) : Prop :=
  p.total.pairs.toNat + pairs < UInt64.size ∧ p.total.sweeps.toNat + sweeps < UInt64.size

theorem CancellationStats.toNat_ofCounts (pairsWord : pairs < UInt64.size)
    (sweepsWord : sweeps < UInt64.size) :
    (ofCounts pairs sweeps).pairs.toNat = pairs ∧ (ofCounts pairs sweeps).sweeps.toNat = sweeps :=
  ⟨UInt64.toNat_ofNat_of_lt' pairsWord, UInt64.toNat_ofNat_of_lt' sweepsWord⟩

theorem Properties.HasRoom.ofCounts (room : p.HasRoom pairs sweeps) :
    p.HasRoom (CancellationStats.ofCounts pairs sweeps).pairs.toNat
      (CancellationStats.ofCounts pairs sweeps).sweeps.toNat := by
  obtain ⟨pairsWord, sweepsWord⟩ := CancellationStats.toNat_ofCounts
    (Nat.lt_of_add_left_lt room.1) (Nat.lt_of_add_left_lt room.2)
  rwa [pairsWord, sweepsWord]

theorem addWords_run (rule : OverflowRule) (a b : UInt64) (s : Compilation) :
    (addWords rule a b).run s =
      if rule = .panic ∧ UInt64.size ≤ a.toNat + b.toNat then .error .panic s
      else .ok (a + b) s := by
  rw [addWords]
  split <;> rfl

theorem Compile.record_run (f : Properties → Properties) (s : Compilation) :
    (Compile.record f).run s = .ok () { s with properties := f s.properties } :=
  EStateM.run_modify ..

theorem recordCancellation_first (none : s.properties.cancellation? = none) :
    (recordCancellation rule stats).run s =
      .ok () { s with properties := s.properties.addCancellation stats } := by
  simp only [recordCancellation, EStateM.run_bind, EStateM.run_get, none, Compile.record_run,
    Properties.addCancellation]

/-- Where statistics are recorded, either sum may be no machine word. -/
theorem recordCancellation_again (rule : OverflowRule) (stats : CancellationStats)
    {total : CancellationStats} (recorded : s.properties.cancellation? = some total) :
    ∃ s₁, s₁.circuit = s.circuit ∧ (recordCancellation rule stats).run s =
      if rule = .panic ∧ UInt64.size ≤ total.pairs.toNat + stats.pairs.toNat then
        .error .panic s
      else if rule = .panic ∧ UInt64.size ≤ total.sweeps.toNat + stats.sweeps.toNat then
        .error .panic s₁
      else .ok () { s with properties := s.properties.addCancellation stats } := by
  refine ⟨{ s with properties := { s.properties with
    cancellation? := some { total with pairs := total.pairs + stats.pairs } } }, rfl, ?_⟩
  simp only [recordCancellation, EStateM.run_bind, EStateM.run_get, recorded, addWords_run,
    Compile.record_run, Properties.addCancellation]
  by_cases pairs : rule = .panic ∧ UInt64.size ≤ total.pairs.toNat + stats.pairs.toNat
  · simp only [if_pos pairs]
  · by_cases sweeps : rule = .panic ∧ UInt64.size ≤ total.sweeps.toNat + stats.sweeps.toNat
    · simp only [if_neg pairs, if_pos sweeps]
    · simp only [if_neg pairs, if_neg sweeps, CancellationStats.add]

/-- Statistics are added if sums wrap around, and also if they are machine words. -/
theorem recordCancellation_run
    (added : rule = .wrap ∨ s.properties.HasRoom stats.pairs.toNat stats.sweeps.toNat) :
    (recordCancellation rule stats).run s =
      .ok () { s with properties := s.properties.addCancellation stats } := by
  cases recorded : s.properties.cancellation? with
  | none => exact recordCancellation_first recorded
  | some total =>
      obtain ⟨s₁, -, run⟩ := recordCancellation_again rule stats recorded
      rw [Properties.HasRoom, Properties.total, recorded] at added
      rw [run, if_neg, if_neg]
      · rintro ⟨panics, full⟩
        cases panics
        exact Nat.not_lt.mpr full (added.resolve_left nofun).2
      · rintro ⟨panics, full⟩
        cases panics
        exact Nat.not_lt.mpr full (added.resolve_left nofun).1

/-- Where a sum is no machine word, a build that does not wrap around panics. -/
theorem recordCancellation_panics
    (full : ¬ s.properties.HasRoom stats.pairs.toNat stats.sweeps.toNat) :
    ∃ s', (recordCancellation .panic stats).run s = .error .panic s' ∧ s'.circuit = s.circuit := by
  rw [Properties.HasRoom, Properties.total] at full
  cases recorded : s.properties.cancellation? with
  | none =>
      rw [recorded] at full
      refine absurd ⟨?_, ?_⟩ full
      · simpa using stats.pairs.toNat_lt_size
      · simpa using stats.sweeps.toNat_lt_size
  | some total =>
      rw [recorded] at full
      obtain ⟨s₁, same, run⟩ := recordCancellation_again .panic stats recorded
      by_cases pairs : UInt64.size ≤ total.pairs.toNat + stats.pairs.toNat
      · exact ⟨s, by rw [run, if_pos ⟨rfl, pairs⟩], rfl⟩
      · have sweeps : UInt64.size ≤ total.sweeps.toNat + stats.sweeps.toNat :=
          Nat.not_lt.mp fun room => full ⟨Nat.not_le.mp pairs, room⟩
        refine ⟨s₁, ?_, same⟩
        rw [run, if_neg fun given => pairs given.2, if_pos ⟨rfl, sweeps⟩]

/-! ## Builds that panic -/

/-- A step ends in a state: it succeeds, or it panics, which it may under one of the rules. -/
def EndsIn (rule : OverflowRule) (step : Compile Unit) (s s' : Compilation) : Prop :=
  step.run s = .ok () s' ∨ rule = .panic ∧ step.run s = .error .panic s'

theorem recordCancellation_ends (rule : OverflowRule) (stats : CancellationStats)
    (s : Compilation) :
    ∃ s', EndsIn rule (recordCancellation rule stats) s s' ∧ s'.circuit = s.circuit := by
  cases rule with
  | wrap => exact ⟨_, .inl (recordCancellation_run (.inl rfl)), rfl⟩
  | panic =>
      by_cases room : s.properties.HasRoom stats.pairs.toNat stats.sweeps.toNat
      · exact ⟨_, .inl (recordCancellation_run (.inr room)), rfl⟩
      · obtain ⟨s', run, same⟩ := recordCancellation_panics room
        exact ⟨s', .inr ⟨rfl, run⟩, same⟩

/-- Two steps do the same, except that the first may panic. -/
def SameUnlessPanic {α : Type} (step step' : Compile α) : Prop :=
  ∀ s, step.run s = step'.run s ∨ ∃ s', step.run s = .error .panic s'

theorem SameUnlessPanic.refl {α : Type} (step : Compile α) : SameUnlessPanic step step :=
  fun _ => .inl rfl

theorem SameUnlessPanic.bind {α β : Type} {step step' : Compile α} {next next' : α → Compile β}
    (first : SameUnlessPanic step step') (rest : ∀ a, SameUnlessPanic (next a) (next' a)) :
    SameUnlessPanic (step >>= next) (step' >>= next') := by
  intro s
  rw [EStateM.run_bind, EStateM.run_bind]
  rcases first s with same | ⟨s', panics⟩
  · rw [same]
    cases step'.run s with
    | ok a s' => exact rest a s'
    | error failure s' => exact .inl rfl
  · rw [panics]
    exact .inr ⟨s', rfl⟩

theorem recordCancellation_same (stats : CancellationStats) :
    SameUnlessPanic (recordCancellation .panic stats) (recordCancellation .wrap stats) := by
  intro s
  rw [recordCancellation_run (.inl rfl)]
  by_cases room : s.properties.HasRoom stats.pairs.toNat stats.sweeps.toNat
  · exact .inl (recordCancellation_run (.inr room))
  · obtain ⟨s', panics, -⟩ := recordCancellation_panics room
    exact .inr ⟨s', panics⟩

theorem Pass.run_same (pass : Pass) : SameUnlessPanic (pass.run .panic) pass.run := by
  have cancelled : ∀ accept, SameUnlessPanic (cancelPairs accept .panic) (cancelPairs accept) :=
    fun accept => (SameUnlessPanic.refl _).bind recordCancellation_same
  cases pass with
  | cancelCX => exact cancelled _
  | cancelInvolutions => exact cancelled _
  | compactVertices => exact .refl _
  | circuitAnalysis => exact .refl _
  | integrityVerification => exact .refl _

theorem Pipeline.runPass_same (pass : Pass) :
    SameUnlessPanic (runPass pass .panic) (runPass pass) := by
  refine (SameUnlessPanic.refl _).bind fun s => ?_
  split
  · exact pass.run_same.bind fun _ => .refl _
  · exact .refl _

/-- Every pipeline does the same in all builds of the program, unless one of them panics. -/
theorem Pipeline.run_same (passes : List Pass) :
    SameUnlessPanic (Pipeline.run passes .panic) (Pipeline.run passes) := by
  induction passes with
  | nil => exact .refl _
  | cons pass passes ih => exact (runPass_same pass).bind fun _ => ih

/-! ## Several runs -/

end CircuitDag
