import CircuitDag.Proofs.Samples.Building
import CircuitDag.Samples

/-!
# The shapes of the sample circuits

Each operation of a sample circuit stands on one wire or on two, so its level follows from the
levels of these. In the Fourier transform the Hadamard gate on a wire `i` comes at level
`2 * i + 1`, the phase from a later wire `j` at level `i + j + 1` and the exchange of `i` with
`n - 1 - i` at level `2 * n - i`.
-/

set_option autoImplicit false

namespace CircuitDag

variable {levels : WireId → Nat} {label : Label} {a b w n i k : Nat}

/-! ## Operations on one and two wires -/

theorem raise_single (on : label.wires = [a]) :
    label.raise levels w = if w = a then levels a + 1 else levels w := by
  simp [Label.raise, on, highest]

theorem raise_pair {top : Nat} (on : label.wires = [a, b])
    (above : max (levels a) (levels b) + 1 = top) :
    label.raise levels w = if w = a ∨ w = b then top else levels w := by
  simp [Label.raise, on, highest, above]

namespace Samples

/-! ## Levels of the Fourier transform -/

/-- The Hadamard gate of a stage and its first phases. -/
def stageFront (i k : Nat) : List Label :=
  (Call.h i :: (List.range k).map fun k =>
    Call.cp (.value (halvedPi (k + 1))) (i + 1 + k) i).map Call.label

theorem stageFront_succ (i k : Nat) : stageFront i (k + 1) =
    stageFront i k ++ [⟨.cp, [.value (halvedPi (k + 1))], [i + 1 + k, i]⟩] := by
  simp [stageFront, List.range_succ, Call.label, Call.cp, Call.withParams, Operation.label,
    Operation.params]

/-- The levels before a stage. -/
structure BeforeStage (n i : Nat) (levels : WireId → Nat) : Prop where
  finished : ∀ w < i, levels w = w + n
  current : i < n → levels i = 2 * i
  ahead : ∀ w, i < w → w < n → levels w ≤ i + w

/-- The levels behind the first phases of a stage. -/
structure WithinStage (n i k : Nat) (levels : WireId → Nat) : Prop where
  finished : ∀ w < i, levels w = w + n
  current : levels i = 2 * i + 1 + k
  met : ∀ w, i < w → w ≤ i + k → levels w = i + w + 1
  ahead : ∀ w, i + k < w → w < n → levels w ≤ i + w

theorem BeforeStage.within (before : BeforeStage n i levels) (inside : i + k < n) :
    WithinStage n i k (levelsFrom levels (stageFront i k)) := by
  induction k with
  | zero =>
      have first : ∀ w : Nat, levelsFrom levels (stageFront i 0) w =
          if w = i then levels i + 1 else levels w := fun w => raise_single rfl
      have current := before.current inside
      refine ⟨fun w early => ?_, ?_, fun w later none => ?_, fun w later bound => ?_⟩
      · rw [first, if_neg early.ne, before.finished w early]
      · rw [first, if_pos rfl, current]
      · omega
      · rw [first, if_neg (by omega)]
        exact before.ahead w (by omega) bound
  | succ k ih =>
      have met := ih (by omega)
      rw [stageFront_succ, levelsFrom_append]
      generalize levelsFrom levels (stageFront i k) = levels' at met
      obtain ⟨finished, current, met, ahead⟩ := met
      have next : ∀ w : Nat,
          levelsFrom levels' [⟨.cp, [.value (halvedPi (k + 1))], [i + 1 + k, i]⟩] w =
            if w = i + 1 + k ∨ w = i then 2 * i + 1 + (k + 1) else levels' w := by
        have partner := ahead (i + 1 + k) (by omega) (by omega)
        exact fun w => raise_pair rfl (by omega)
      refine ⟨fun w early => ?_, ?_, fun w later early => ?_, fun w later bound => ?_⟩
      · rw [next, if_neg (by omega), finished w early]
      · rw [next, if_pos (.inr rfl)]
      · rw [next]
        split
        · omega
        · exact met w later (by omega)
      · rw [next, if_neg (by omega)]
        exact ahead w (by omega) bound

/-- Behind a stage its wire is finished, and the next wire has met all earlier ones. -/
theorem WithinStage.next (within : WithinStage n i k levels) (last : i + k + 1 = n) :
    BeforeStage n (i + 1) levels := by
  obtain ⟨finished, current, met, ahead⟩ := within
  refine ⟨fun w early => ?_, fun inside => ?_, fun w later bound => ?_⟩
  · rcases Nat.lt_succ_iff_lt_or_eq.mp early with early | rfl
    · exact finished w early
    · omega
  · rw [met (i + 1) (by omega) (by omega)]
    omega
  · rw [met w (by omega) (by omega)]
    omega

/-- The stages of the first wires. -/
def stages (n m : Nat) : List Label := (List.range m).flatMap fun i => stageFront i (n - (i + 1))

theorem stages_succ (n m : Nat) : stages n (m + 1) = stages n m ++ stageFront m (n - (m + 1)) := by
  simp [stages, List.range_succ]

theorem beforeStage_stages (inside : i ≤ n) : BeforeStage n i (levelsBehind (stages n i)) := by
  induction i with
  | zero => exact ⟨nofun, fun _ => rfl, fun w _ _ => Nat.zero_le _⟩
  | succ i ih =>
      rw [stages_succ, levelsBehind_append]
      exact ((ih (by omega)).within (by omega)).next (by omega)

/-- The exchange of the first wires with the last ones. -/
def exchanges (n m : Nat) : List Label :=
  (List.range m).map fun i => (Call.swap i (n - 1 - i)).label

theorem exchanges_succ (n m : Nat) :
    exchanges n (m + 1) = exchanges n m ++ [⟨.swap, [], [m, n - 1 - m]⟩] := by
  simp [exchanges, List.range_succ, Call.label, Call.swap, Call.plain, Operation.label,
    Operation.params]

/-- The levels behind the first exchanges. -/
structure Exchanged (n k : Nat) (levels : WireId → Nat) : Prop where
  exchanged : ∀ i < k, levels i = 2 * n - i ∧ levels (n - 1 - i) = 2 * n - i
  waiting : ∀ w, k ≤ w → w + k < n → levels w = w + n

theorem exchanged_exchanges (finished : ∀ w < n, levels w = w + n) (half : k ≤ n / 2) :
    Exchanged n k (levelsFrom levels (exchanges n k)) := by
  induction k with
  | zero => exact ⟨nofun, fun w _ bound => finished w bound⟩
  | succ k ih =>
      obtain ⟨exchanged, waiting⟩ := ih (by omega)
      rw [exchanges_succ, levelsFrom_append]
      generalize levelsFrom levels (exchanges n k) = levels' at exchanged waiting
      have next : ∀ w : Nat, levelsFrom levels' [⟨.swap, [], [k, n - 1 - k]⟩] w =
          if w = k ∨ w = n - 1 - k then 2 * n - k else levels' w := by
        have first := waiting k (by omega) (by omega)
        have second := waiting (n - 1 - k) (by omega) (by omega)
        exact fun w => raise_pair rfl (by omega)
      refine ⟨fun i early => ?_, fun w later bound => ?_⟩
      · rcases Nat.lt_succ_iff_lt_or_eq.mp early with early | rfl
        · rw [next, next, if_neg (by omega), if_neg (by omega)]
          exact exchanged i early
        · rw [next, next, if_pos (.inl rfl), if_pos (.inr rfl)]
          exact ⟨rfl, rfl⟩
      · rw [next, if_neg (by omega)]
        exact waiting w (by omega) (by omega)

/-- The operations of the Fourier transform. -/
def qftLabels (n : Nat) : List Label := stages n n ++ exchanges n (n / 2)

theorem map_label_qftCalls (n : Nat) : (qftCalls n).map Call.label = qftLabels n := by
  rw [qftCalls, qftLabels, List.map_append, List.map_flatMap, reversal, List.map_map]
  rfl

theorem highest_qftLabels (wide : 2 ≤ n) :
    highest (levelsBehind (qftLabels n)) (List.range n) = 2 * n := by
  have finished := (beforeStage_stages (Nat.le_refl n)).finished
  obtain ⟨exchanged, waiting⟩ := exchanged_exchanges finished (Nat.le_refl (n / 2))
  rw [← levelsBehind_append, ← qftLabels] at exchanged waiting
  refine highest_eq_iff.mpr ⟨fun (w : Nat) member => ?_, .inr ⟨0, ?_, ?_⟩⟩
  · have bound : w < n := List.mem_range.mp member
    rcases Nat.lt_or_ge w (n / 2) with front | later
    · have level := (exchanged w front).1
      omega
    · rcases Nat.lt_or_ge (w + n / 2) n with middle | back
      · have level := waiting w later middle
        omega
      · have level := (exchanged (n - 1 - w) (by omega)).2
        have twice : n - 1 - (n - 1 - w) = w := by omega
        rw [twice] at level
        omega
  · exact List.mem_range.mpr (by omega)
  · exact (exchanged 0 (by omega)).1

theorem accepts_qftCalls : ∀ call ∈ qftCalls n, (Circuit.blank n 0).AcceptsCall call := by
  intro call member
  cases List.mem_append.mp member with
  | inl staged =>
      obtain ⟨(i : Nat), inside, staged⟩ := List.mem_flatMap.mp staged
      have bound : i < n := List.mem_range.mp inside
      cases List.mem_cons.mp staged with
      | inl first =>
          rw [first]
          exact Circuit.blank_accepts_hadamard bound
      | inr phase =>
          obtain ⟨(k : Nat), later, rfl⟩ := List.mem_map.mp phase
          have rest : k < n - (i + 1) := List.mem_range.mp later
          have apart : i + 1 + k ≠ i := by omega
          have below : i + 1 + k < n := by omega
          exact Circuit.blank_accepts_pair rfl rfl rfl ⟨rfl, rfl, rfl⟩ apart below bound
  | inr exchange =>
      obtain ⟨(i : Nat), listed, rfl⟩ := List.mem_map.mp exchange
      have half : i < n / 2 := List.mem_range.mp listed
      have apart : i ≠ n - 1 - i := by omega
      have below : i < n ∧ n - 1 - i < n := by omega
      exact Circuit.blank_accepts_pair rfl rfl rfl ⟨rfl, rfl, rfl⟩ apart below.1 below.2

/-! ## Operations of the Fourier transform -/

theorem map_element_stageFront (i k : Nat) :
    (stageFront i k).map Label.element = .h :: List.replicate k .cp := by
  rw [stageFront, List.map_map, List.map_cons, List.map_map]
  exact congrArg _ ((List.map_const' ..).trans (by rw [List.length_range]))

theorem map_element_exchanges (n k : Nat) :
    (exchanges n k).map Label.element = List.replicate k .swap := by
  rw [exchanges, List.map_map]
  exact (List.map_const' ..).trans (by rw [List.length_range])

/-- Of all pairs of wires, those remain that have not met after the first stages. -/
theorem sum_phases (inside : k ≤ n) :
    2 * ((List.range k).map fun i => n - (i + 1)).sum + (n - k) * (n - k - 1) = n * (n - 1) := by
  induction k with
  | zero => simp
  | succ k ih =>
      obtain ⟨d, rfl⟩ := Nat.exists_eq_add_of_le inside
      have before := ih (by omega)
      have pairs : (d + 1) * d = 2 * d + d * (d - 1) := by
        cases d with
        | zero => rfl
        | succ d =>
            rw [Nat.add_sub_cancel]
            grind
      have rest : k + 1 + d - k = d + 1 ∧ k + 1 + d - (k + 1) = d := by omega
      rw [List.range_succ, List.map_append, List.sum_append, List.map_singleton,
        List.sum_singleton, rest.2, ← before, rest.1, Nat.add_sub_cancel, pairs]
      omega

theorem count_stages (n : Nat) (e : Element) :
    ((stages n n).map Label.element).count e = match e with
      | .h => n
      | .cp => n * (n - 1) / 2
      | _ => 0 := by
  have phases := sum_phases (Nat.le_refl n)
  rw [Nat.sub_self, Nat.zero_mul, Nat.add_zero] at phases
  rw [stages, List.map_flatMap, List.count_flatMap]
  simp only [map_element_stageFront, Function.comp_def, List.count_cons, List.count_replicate]
  cases e <;> simp
  omega

theorem count_qftLabels (n : Nat) (e : Element) :
    ((qftLabels n).map Label.element).count e = match e with
      | .h => n
      | .cp => n * (n - 1) / 2
      | .swap => n / 2
      | _ => 0 := by
  rw [qftLabels, List.map_append, List.count_append, map_element_exchanges, count_stages,
    List.count_replicate]
  cases e <;> simp

theorem mem_stageFront : label ∈ stageFront i k ↔ label = ⟨.h, [], [i]⟩ ∨
    ∃ d < k, label = ⟨.cp, [.value (halvedPi (d + 1))], [i + 1 + d, i]⟩ := by
  simp [stageFront, Call.label, Call.h, Call.plain, Call.cp, Call.withParams, Operation.label,
    Operation.params, eq_comm]

theorem phase_mem_qftLabels (earlier : i < k) (inside : k < n) :
    ∃ label ∈ qftLabels n, label.element = .cp ∧ label.wires = [k, i] := by
  obtain ⟨d, rfl⟩ := Nat.exists_eq_add_of_lt earlier
  have phase : ⟨.cp, [.value (halvedPi (d + 1))], [i + 1 + d, i]⟩ ∈ stageFront i (n - (i + 1)) :=
    mem_stageFront.mpr (.inr ⟨d, by omega, rfl⟩)
  have bound : i < n := by omega
  refine ⟨_, List.mem_append_left _ (List.mem_flatMap.mpr ⟨i, List.mem_range.mpr bound, phase⟩),
    rfl, ?_⟩
  rw [Nat.add_right_comm]

theorem nodup_qftLabels (n : Nat) :
    ((qftLabels n).map fun label => (label.element, label.wires)).Nodup := by
  rw [qftLabels, List.map_append, stages, List.map_flatMap]
  refine List.nodup_append.mpr ⟨List.nodup_flatMap.mpr ⟨fun i _ => ?_, ?_⟩, ?_, ?_⟩
  · rw [stageFront, List.map_map, List.map_cons, List.map_map, List.nodup_cons]
    refine ⟨fun same => ?_, List.nodup_range.map fun d d' same => ?_⟩
    · obtain ⟨d, -, same⟩ := List.mem_map.mp same
      cases congrArg Prod.fst same
    · exact Nat.add_left_cancel (List.cons.inj (congrArg Prod.snd same)).1
  · -- the last wire of every operation is that of its stage
    have last : ∀ {i k seat}, seat ∈ (stageFront i k).map (fun label =>
        (label.element, label.wires)) → seat.2.getLast? = some i := by
      intro i k seat member
      obtain ⟨label, staged, rfl⟩ := List.mem_map.mp member
      rcases mem_stageFront.mp staged with rfl | ⟨d, -, rfl⟩
      · rfl
      · rfl
    refine List.nodup_range.imp fun {i j} different seat left right => different ?_
    exact Option.some.inj ((last left).symm.trans (last right))
  · rw [exchanges, List.map_map]
    refine List.nodup_range.map fun i j same => ?_
    exact (List.cons.inj (congrArg Prod.snd same)).1
  · rintro seat staged seat' exchanged rfl
    obtain ⟨label, exchange, rfl⟩ := List.mem_map.mp exchanged
    obtain ⟨i, -, rfl⟩ := List.mem_map.mp exchange
    obtain ⟨j, -, staged⟩ := List.mem_flatMap.mp staged
    obtain ⟨label, phase, same⟩ := List.mem_map.mp staged
    rcases mem_stageFront.mp phase with rfl | ⟨d, -, rfl⟩
    · cases congrArg Prod.fst same
    · cases congrArg Prod.fst same

theorem joined_qftLabels (positive : 0 < n + 0) (a : Fin (n + 0)) :
    Relation.EqvGen (Circuit.Together (n + 0) (qftLabels n)) a ⟨0, positive⟩ := by
  rcases Nat.eq_zero_or_pos a with first | later
  · obtain rfl : a = ⟨0, positive⟩ := Fin.ext first
    exact .refl _
  · obtain ⟨label, member, -, wires⟩ := phase_mem_qftLabels later a.isLt
    exact .rel _ _ ⟨label, member, by simp [wires], by simp [wires]⟩

/-! ## Room for the Fourier transform -/

theorem sizes_stageFront (i k : Nat) :
    (stageFront i k).length = k + 1 ∧ Circuit.edgesFor (stageFront i k) = 2 * k + 1 := by
  constructor
  · simp [stageFront]
  · rw [stageFront, List.map_cons, List.map_map, Circuit.edgesFor_cons,
      Circuit.edgesFor_pairs fun _ => rfl, Nat.add_comm]
    rfl

theorem sizes_stages (n m : Nat) :
    (stages n m).length = m + ((List.range m).map fun i => n - (i + 1)).sum ∧
      Circuit.edgesFor (stages n m) =
        m + 2 * ((List.range m).map fun i => n - (i + 1)).sum := by
  induction m with
  | zero => exact ⟨rfl, rfl⟩
  | succ m ih =>
      obtain ⟨length, edges⟩ := sizes_stageFront m (n - (m + 1))
      rw [stages_succ, List.length_append, Circuit.edgesFor_append, ih.1, ih.2, length, edges,
        List.range_succ, List.map_append, List.sum_append, List.map_singleton, List.sum_singleton]
      omega

theorem edgesFor_exchanges (n m : Nat) : Circuit.edgesFor (exchanges n m) = 2 * m :=
  Circuit.edgesFor_pairs (fun _ => rfl) m

/-- The number of edges limits the Fourier transform. -/
theorem qftLabels_fit_iff (wide : 2 ≤ n) :
    (2 * (n + 0) + (qftLabels n).length ≤ Graph.maxSize ∧
      n + 0 + Circuit.edgesFor (qftLabels n) ≤ Graph.maxSize) ↔ n ≤ 65535 := by
  obtain ⟨length, edges⟩ := sizes_stages n n
  have phases := sum_phases (Nat.le_refl n)
  have square : n * (n - 1) + n = n * n := by
    rw [← Nat.mul_succ, Nat.succ_eq_add_one, Nat.sub_add_cancel (by omega)]
  have limit : Graph.maxSize = 65536 * 65536 - 1 := rfl
  rw [Nat.sub_self, Nat.zero_mul, Nat.add_zero] at phases
  rw [qftLabels, List.length_append, Circuit.edgesFor_append, length, edges, phases,
    edgesFor_exchanges, exchanges, List.length_map, List.length_range, limit]
  generalize ((List.range n).map fun i => n - (i + 1)).sum = rest at phases
  constructor
  · rintro ⟨-, few⟩
    by_contra many
    have least : 65536 * 65536 ≤ n * n := Nat.mul_le_mul (by omega) (by omega)
    omega
  · intro few
    have most : n * (n - 1) ≤ 65535 * 65534 := Nat.mul_le_mul few (by omega)
    omega

/-! ## The chain of controlled gates -/

/-- The Hadamard gate and the first controlled gates of the chain. -/
def chain (k : Nat) : List Label :=
  (Call.h 0 :: (List.range k).map fun i => Call.cx i (i + 1)).map Call.label

theorem chain_succ (k : Nat) : chain (k + 1) = chain k ++ [⟨.cx, [], [k, k + 1]⟩] := by
  simp [chain, List.range_succ, Call.label, Call.cx, Call.plain, Operation.label, Operation.params]

/-- The measurements of the first qubits. -/
def measurements (n k : Nat) : List Label :=
  (List.range k).map fun i => (Call.measure i (n + i)).label

theorem measurements_succ (n k : Nat) :
    measurements n (k + 1) = measurements n k ++ [⟨.measure, [], [k, n + k]⟩] := by
  simp [measurements, List.range_succ, Call.label, Call.measure, Operation.label, Operation.params]

def ghzLabels (n : Nat) : List Label := chain (n - 1) ++ measurements n n

theorem map_label_ghzCalls (positive : 1 ≤ n) : (ghzCalls n).map Call.label = ghzLabels n := by
  rw [ghzCalls, if_neg (by omega), ghzLabels, chain, measurements, List.map_append, List.map_map]
  rfl

theorem levelsBehind_chain (k w : Nat) : levelsBehind (chain k) w =
    if w < k then w + 2 else if w = k then k + 1 else 0 := by
  induction k generalizing w with
  | zero =>
      have first : (Call.h 0).label.raise (fun _ => 0) w = if w = 0 then 0 + 1 else 0 :=
        raise_single rfl
      exact first.trans (by simp)
  | succ k ih =>
      rw [chain_succ, levelsBehind_append]
      refine (raise_pair rfl rfl).trans ?_
      rw [ih, ih, ih]
      grind

theorem levelsFrom_measurements (unused : ∀ w, n ≤ w → levels w = 0) (inside : k ≤ n) (w : Nat) :
    levelsFrom levels (measurements n k) w =
      if w < k then levels w + 1
      else if n ≤ w ∧ w < n + k then levels (w - n) + 1 else levels w := by
  induction k generalizing w with
  | zero =>
      rw [if_neg (Nat.not_lt_zero w), if_neg (by omega)]
      rfl
  | succ k ih =>
      have bit := unused (n + k) (by omega)
      rw [measurements_succ, levelsFrom_append]
      refine (raise_pair rfl rfl).trans ?_
      rw [ih (by omega), ih (by omega), ih (by omega)]
      grind

theorem highest_ghzLabels (positive : 1 ≤ n) :
    highest (levelsBehind (ghzLabels n)) (List.range (n + n)) = n + 1 := by
  have chained := levelsBehind_chain (n - 1)
  have unused : ∀ w, n ≤ w → levelsBehind (chain (n - 1)) w = 0 := fun w outside => by grind
  have measured := levelsFrom_measurements unused (Nat.le_refl n)
  rw [← levelsBehind_append, ← ghzLabels] at measured
  refine highest_eq_iff.mpr ⟨fun (w : Nat) member => ?_, .inr ⟨n - 1, ?_, ?_⟩⟩
  · have bound : w < n + n := List.mem_range.mp member
    grind
  · exact List.mem_range.mpr (by omega)
  · grind

theorem count_ghzLabels (n : Nat) (e : Element) :
    ((ghzLabels n).map Label.element).count e = match e with
      | .h => 1
      | .cx => n - 1
      | .measure => n
      | _ => 0 := by
  have elements : (ghzLabels n).map Label.element =
      .h :: List.replicate (n - 1) .cx ++ List.replicate n .measure := by
    rw [ghzLabels, List.map_append, chain, measurements, List.map_map, List.map_map, List.map_cons,
      List.map_map]
    refine congrArg₂ _ (congrArg _ ((List.map_const' ..).trans ?_))
      ((List.map_const' ..).trans ?_) <;> rw [List.length_range]
  rw [elements]
  simp only [List.count_append, List.count_cons, List.count_replicate]
  cases e <;> simp

theorem accepts_ghzCalls (positive : 1 ≤ n) :
    ∀ call ∈ ghzCalls n, (Circuit.blank n n).AcceptsCall call := by
  intro call member
  rw [ghzCalls, if_neg (by omega)] at member
  cases List.mem_append.mp member with
  | inl chained =>
      cases List.mem_cons.mp chained with
      | inl first =>
          rw [first]
          exact Circuit.blank_accepts_hadamard positive
      | inr linked =>
          obtain ⟨(i : Nat), listed, rfl⟩ := List.mem_map.mp linked
          have bound : i < n - 1 := List.mem_range.mp listed
          have below : i < n ∧ i + 1 < n := by omega
          exact Circuit.blank_accepts_pair rfl rfl rfl ⟨rfl, rfl, rfl⟩ (Nat.ne_of_lt i.lt_succ_self)
            below.1 below.2
  | inr measured =>
      obtain ⟨(i : Nat), listed, rfl⟩ := List.mem_map.mp measured
      have bound : i < n := List.mem_range.mp listed
      refine Circuit.blank_accepts rfl ⟨rfl, rfl, rfl⟩ (List.cons_ne_nil _ _) ?_ ?_ ?_
      · have apart : i ≠ n + i := by omega
        simpa [Call.measure] using apart
      · simpa [Call.measure] using bound
      · simpa [Call.measure] using bound

theorem joined_ghzLabels (positive : 0 < n + n) (a : Fin (n + n)) :
    Relation.EqvGen (Circuit.Together (n + n) (ghzLabels n)) a ⟨0, positive⟩ := by
  have chained : ∀ i (inside : i < n), Relation.EqvGen
      (Circuit.Together (n + n) (ghzLabels n)) ⟨i, by omega⟩ ⟨0, positive⟩ := by
    intro i inside
    induction i with
    | zero => exact .refl _
    | succ i ih =>
        have link : (Call.cx i (i + 1)).label ∈ ghzLabels n := by
          refine List.mem_append_left _ (List.mem_map_of_mem (List.mem_cons_of_mem _ ?_))
          exact List.mem_map_of_mem (List.mem_range.mpr (by omega))
        refine .trans _ _ _ (.rel _ _ ⟨_, link, ?_, ?_⟩) (ih (by omega))
        · exact List.mem_cons_of_mem _ List.mem_cons_self
        · exact List.mem_cons_self
  rcases Nat.lt_or_ge a n with qubit | bit
  · exact chained a qubit
  · obtain ⟨i, same⟩ := Nat.exists_eq_add_of_le bit
    have inside : i < n := by omega
    have link : (Call.measure i (n + i)).label ∈ ghzLabels n :=
      List.mem_append_right _ (List.mem_map_of_mem (List.mem_range.mpr inside))
    refine .trans _ _ _ (.rel _ _ ⟨_, link, ?_, List.mem_cons_self⟩) (chained i inside)
    rw [same]
    exact List.mem_cons_of_mem _ List.mem_cons_self

theorem sizes_chain (k : Nat) :
    (chain k).length = k + 1 ∧ Circuit.edgesFor (chain k) = 2 * k + 1 := by
  constructor
  · simp [chain]
  · rw [chain, List.map_cons, List.map_map, Circuit.edgesFor_cons,
      Circuit.edgesFor_pairs fun _ => rfl, Nat.add_comm]
    rfl

theorem sizes_measurements (n k : Nat) :
    (measurements n k).length = k ∧ Circuit.edgesFor (measurements n k) = 2 * k := by
  constructor
  · simp [measurements]
  · exact Circuit.edgesFor_pairs (fun _ => rfl) k

/-- The number of vertices limits the chain. -/
theorem ghzLabels_fit_iff (positive : 1 ≤ n) :
    (2 * (n + n) + (ghzLabels n).length ≤ Graph.maxSize ∧
      n + n + Circuit.edgesFor (ghzLabels n) ≤ Graph.maxSize) ↔ n ≤ 715827882 := by
  obtain ⟨length, edges⟩ := sizes_chain (n - 1)
  obtain ⟨length', edges'⟩ := sizes_measurements n n
  have limit : Graph.maxSize = 4294967295 := rfl
  rw [ghzLabels, List.length_append, Circuit.edgesFor_append, length, length', edges, edges', limit]
  omega

/-! ## Shapes -/

/-- The Fourier transform can be built if its graph has room. -/
theorem qft_carrying (wide : 2 ≤ n) : ∃ c, Circuit.Carrying n 0 (qftLabels n) c ∧
    qft n = c.orPanic ∧ (c.fits = true ↔ n ≤ 65535) := by
  obtain ⟨c, carrying, built⟩ := Circuit.ofCalls_carrying (accepts_qftCalls (n := n))
  rw [map_label_qftCalls] at carrying
  exact ⟨c, carrying, built, carrying.fits_iff.trans (qftLabels_fit_iff wide)⟩

theorem ghz_carrying (positive : 1 ≤ n) : ∃ c, Circuit.Carrying n n (ghzLabels n) c ∧
    ghz n = c.orPanic ∧ (c.fits = true ↔ n ≤ 715827882) := by
  obtain ⟨c, carrying, built⟩ := Circuit.ofCalls_carrying (accepts_ghzCalls positive)
  rw [map_label_ghzCalls positive] at carrying
  exact ⟨c, carrying, built, carrying.fits_iff.trans (ghzLabels_fit_iff positive)⟩

theorem qft_panics (many : 65535 < n) : qft n = .error .panic := by
  obtain ⟨c, -, built, fits⟩ := qft_carrying (n := n) (by omega)
  rw [built, Circuit.orPanic_of_full fun room => Nat.not_le.mpr many (fits.mp room)]

theorem ghz_panics (many : 715827882 < n) : ghz n = .error .panic := by
  obtain ⟨c, -, built, fits⟩ := ghz_carrying (n := n) (by omega)
  rw [built, Circuit.orPanic_of_full fun room => Nat.not_le.mpr many (fits.mp room)]

/-- As long as the graph has room, the Fourier transform consists of a Hadamard gate on every wire,
one phase on every two wires and the exchange of all wires, and is twice as deep as it is wide. The
chain of controlled gates with its measurements is one level deeper than wide. Both join all wires.
For more qubits than that the construction panics. -/
theorem samples_have_shape :
    (∀ n, 2 ≤ n → n ≤ 65535 → ∃ c, qft n = .ok c ∧
      (∀ e : Element, e.timesIn c.elementCounts = match e with
        | .h => n
        | .cp => n * (n - 1) / 2
        | .swap => n / 2
        | _ => 0) ∧
      (∀ i j, i < j → j < n → c.topologicalOperations.countP
        (fun entry => entry.2.element = .cp ∧ entry.2.wires = [j, i]) = 1) ∧
      c.numTensorFactors = 1 ∧ c.depth = 2 * n) ∧
    (∀ n, 65535 < n → qft n = .error .panic) ∧
    (∀ n, 1 ≤ n → n ≤ 715827882 → ∃ c, ghz n = .ok c ∧
      (∀ e : Element, e.timesIn c.elementCounts = match e with
        | .h => 1
        | .cx => n - 1
        | .measure => n
        | _ => 0) ∧
      c.numWires = 2 * n ∧ c.numTensorFactors = 1 ∧ c.depth = n + 1) ∧
    ∀ n, 715827882 < n → ghz n = .error .panic := by
  refine ⟨fun n wide few => ?_, fun n => qft_panics, fun n positive few => ?_, fun n => ghz_panics⟩
  · obtain ⟨c, carrying, built, fits⟩ := qft_carrying wide
    rw [Circuit.orPanic_of_fits (fits.mpr few)] at built
    refine ⟨c, built, fun e => ?_, fun i j earlier inside => ?_, ?_, ?_⟩
    · rw [carrying.timesIn_elementCounts, count_qftLabels]
    · rw [carrying.countP_topologicalOperations]
      refine List.count_eq_one_of_mem (nodup_qftLabels n) ?_
      obtain ⟨label, member, element, wires⟩ := phase_mem_qftLabels earlier inside
      exact List.mem_map.mpr ⟨label, member, by rw [element, wires]⟩
    · exact carrying.numTensorFactors_eq_one _ (joined_qftLabels (by omega))
    · exact carrying.depth_eq.trans (highest_qftLabels wide)
  · obtain ⟨c, carrying, built, fits⟩ := ghz_carrying positive
    rw [Circuit.orPanic_of_fits (fits.mpr few)] at built
    refine ⟨c, built, fun e => ?_, ?_, ?_, ?_⟩
    · rw [carrying.timesIn_elementCounts, count_ghzLabels]
    · rw [carrying.numWires, Nat.two_mul]
    · exact carrying.numTensorFactors_eq_one _ (joined_ghzLabels (by omega))
    · exact carrying.depth_eq.trans (highest_ghzLabels positive)

/-- The Fourier transform on three qubits, the chain on one, and the first sizes that are too
large. -/
theorem small_samples_have_shape :
    (∃ c, qft 3 = .ok c ∧ Element.cp.timesIn c.elementCounts = 3 ∧ c.depth = 6) ∧
      qft 65536 = .error .panic ∧
      (∃ c, ghz 1 = .ok c ∧ Element.cx.timesIn c.elementCounts = 0 ∧ c.depth = 2) ∧
      ghz 715827883 = .error .panic := by
  obtain ⟨transform, tooWide, chain, tooLong⟩ := samples_have_shape
  obtain ⟨c, built, counts, -, -, depth⟩ := transform 3 (by decide) (by decide)
  obtain ⟨c', built', counts', -, -, depth'⟩ := chain 1 (by decide) (by decide)
  exact ⟨⟨c, built, counts .cp, depth⟩, tooWide _ (by decide), ⟨c', built', counts' .cx, depth'⟩,
    tooLong _ (by decide)⟩

/-- For numbers of qubits that are machine words, the construction of either sample can panic. -/
theorem large_samples_panic : 2 ≤ Nat.pow 2 59 ∧ Nat.pow 2 60 < UInt64.size ∧
    qft (Nat.pow 2 60) = .error .panic ∧ ghz (Nat.pow 2 59) = .error .panic :=
  ⟨by decide, by decide, qft_panics (by decide), ghz_panics (by decide)⟩

end Samples

end CircuitDag
