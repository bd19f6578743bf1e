import CircuitDag.Pass.Pipeline
import CircuitDag.Proofs.Circuit.Meaning
import CircuitDag.Proofs.Circuit.WellFormed

/-!
# Finding pairs that cancel

Which pairs of operations cancel, and that a search over the topological listing finds only such
pairs, no vertex in two of them, and some pair if there is one.
-/

set_option autoImplicit false

namespace CircuitDag.Circuit

variable {c : Circuit} {line : WireId → List VertexId} {accept : Element → Bool}
  {u v x : VertexId} {w : WireId} {r s : Record}

/-- An operation with an accepted element and the operation that follows it on all its wires, if
that is the same operation on the same wires. -/
def Cancellable (c : Circuit) (accept : Element → Bool) (v u : VertexId) : Prop :=
  ∃ r s, c.records.Live v r ∧ r.isAnchor = false ∧ accept r.element = true ∧
    (∀ w ∈ r.wires, c.neighborOn .outgoing v w = .ok u) ∧
    c.records.get? u = some s ∧ s.element = r.element ∧ s.params = r.params ∧ s.wires = r.wires

/-- Two live vertices with the same operation that are next to each other on all their lines. -/
structure Twins (c : Circuit) (line : WireId → List VertexId) (accept : Element → Bool)
    (v u : VertexId) (r s : Record) : Prop where
  left : c.records.Live v r
  right : c.records.Live u s
  operation : r.isAnchor = false
  accepted : accept r.element = true
  element : s.element = r.element
  params : s.params = r.params
  wires : s.wires = r.wires
  adjacent : ∀ w ∈ r.wires, Adjacent (line w) v u

theorem Layout.cancellable_iff (layout : c.Layout line) :
    c.Cancellable accept v u ↔ ∃ r s, c.Twins line accept v u r s := by
  constructor
  · intro given
    obtain ⟨r, s, live, operation, accepted, next, found, element, params, wires⟩ := given
    have adjacent : ∀ w ∈ r.wires, Adjacent (line w) v u := fun w member =>
      layout.neighborOn_eq_ok_iff.mp (next w member)
    obtain ⟨w, member⟩ := List.exists_mem_of_ne_nil _ (layout.wired v r live).nonempty
    obtain ⟨t, right, -⟩ := layout.carries (adjacent w member).mem_right
    obtain rfl := Option.some.inj (found.symm.trans right.1)
    exact ⟨r, s, live, right, operation, accepted, element, params, wires, adjacent⟩
  · intro given
    obtain ⟨r, s, twins⟩ := given
    exact ⟨r, s, twins.left, twins.operation, twins.accepted,
      fun w member => layout.neighborOn_eq_ok_iff.mpr (twins.adjacent w member),
      twins.right.1, twins.element, twins.params, twins.wires⟩

theorem Twins.ne (twins : c.Twins line accept v u r s) (layout : c.Layout line) : v ≠ u := by
  obtain ⟨w, member⟩ := List.exists_mem_of_ne_nil _ (layout.wired v r twins.left).nonempty
  exact (twins.adjacent w member).ne (layout.strung w).nodup

theorem cancellable_iff_of_live (live : c.records.Live v r) (operation : r.isAnchor = false)
    (accepted : accept r.element = true) :
    c.Cancellable accept v u ↔ (∀ w ∈ r.wires, c.neighborOn .outgoing v w = .ok u) ∧
      ∃ s, c.records.get? u = some s ∧ s.element = r.element ∧ s.params = r.params ∧
        s.wires = r.wires := by
  constructor
  · intro given
    obtain ⟨r', s, live', -, -, next, found, fits⟩ := given
    obtain rfl := live.unique live'
    exact ⟨next, s, found, fits⟩
  · intro given
    obtain ⟨next, s, found, fits⟩ := given
    exact ⟨r, s, live, operation, accepted, next, found, fits⟩

/-- The partner of an operation is the vertex with which it cancels. -/
theorem Layout.cancellingPartner?_eq_some_iff (layout : c.Layout line)
    (live : c.records.Live v r) (operation : r.isAnchor = false)
    (accepted : accept r.element = true) :
    c.cancellingPartner? v r = some u ↔ c.Cancellable accept v u := by
  have nonempty := (layout.wired v r live).nonempty
  rw [cancellable_iff_of_live live operation accepted]
  unfold cancellingPartner?
  cases wires : r.wires with
  | nil => exact absurd wires nonempty
  | cons first rest =>
      have known : ∀ {w x}, (c.neighborOn .outgoing v w).toOption = some x ↔
          c.neighborOn .outgoing v w = .ok x := by
        intro w x
        cases c.neighborOn .outgoing v w <;> simp [Except.toOption]
      have others : ∀ x, (rest.any fun w =>
          decide ((c.neighborOn .outgoing v w).toOption ≠ some x)) = true ↔
            ¬ ∀ w ∈ rest, c.neighborOn .outgoing v w = .ok x := by
        intro x
        simp [known]
      have fits : ∀ x, ((c.records.get? x).bind fun s =>
          if s.element = r.element ∧ s.params = r.params ∧ s.wires = first :: rest then some x
          else none) = some u ↔ x = u ∧ ∃ s, c.records.get? u = some s ∧
            s.element = r.element ∧ s.params = r.params ∧ s.wires = first :: rest := by
        intro x
        rw [Option.bind_eq_some_iff]
        constructor
        · intro given
          obtain ⟨s, found, chosen⟩ := given
          split at chosen
          · next all =>
              obtain rfl := Option.some.inj chosen
              exact ⟨rfl, s, found, all⟩
          · cases chosen
        · intro given
          obtain ⟨rfl, s, found, all⟩ := given
          exact ⟨s, found, if_pos all⟩
      simp only [Option.bind_eq_bind, Option.bind_eq_some_iff, known, List.forall_mem_cons]
      constructor
      · intro given
        obtain ⟨x, next, chosen⟩ := given
        split at chosen
        · cases chosen
        · next agree =>
            rw [others, not_not] at agree
            obtain ⟨rfl, found⟩ := (fits x).mp chosen
            exact ⟨⟨next, agree⟩, found⟩
      · intro given
        obtain ⟨⟨next, agree⟩, found⟩ := given
        refine ⟨u, next, ?_⟩
        rw [if_neg ((others u).not.mpr (not_not.mpr agree))]
        exact (fits u).mpr ⟨rfl, found⟩

/-! ## The search -/

def pairVertices (pairs : List (VertexId × VertexId)) : List VertexId :=
  pairs.flatMap fun (v, u) => [v, u]

theorem length_pairVertices (pairs : List (VertexId × VertexId)) :
    (pairVertices pairs).length = 2 * pairs.length := by
  induction pairs with
  | nil => rfl
  | cons pair pairs ih =>
      have both : (pairVertices (pair :: pairs)).length = (pairVertices pairs).length + 2 := rfl
      rw [both, ih, List.length_cons, Nat.mul_succ]

/-- What is known of a search: its pairs cancel, and no vertex is in two of them. -/
structure PairSearch.Sound (c : Circuit) (accept : Element → Bool) (s : PairSearch) : Prop where
  cancellable : ∀ v u, (v, u) ∈ s.pairs → c.Cancellable accept v u
  taken : ∀ v, v ∈ s.taken ↔ v ∈ pairVertices s.pairs
  nodup : (pairVertices s.pairs).Nodup

/-- A search stays sound if it takes a pair that cancels and is apart from all others. -/
theorem PairSearch.Sound.take {search : PairSearch} (sound : search.Sound c accept)
    (cancellable : c.Cancellable accept v u) (different : v ≠ u) (left : v ∉ search.taken)
    (right : u ∉ search.taken) :
    PairSearch.Sound c accept ⟨search.pairs ++ [(v, u)], v :: u :: search.taken⟩ := by
  have vertices : pairVertices (search.pairs ++ [(v, u)]) =
      pairVertices search.pairs ++ [v, u] := by
    simp [pairVertices]
  refine ⟨?_, ?_, ?_⟩
  · intro a b member
    rcases List.mem_append.mp member with old | new
    · exact sound.cancellable a b old
    · obtain ⟨rfl, rfl⟩ := Prod.mk.inj (List.mem_singleton.mp new)
      exact cancellable
  · intro x
    rw [vertices, List.mem_append, ← sound.taken]
    simp only [List.mem_cons, List.not_mem_nil, or_false]
    rw [← or_assoc]
    exact or_comm
  · rw [vertices]
    refine List.nodup_append.mpr ⟨sound.nodup, by simpa using different, ?_⟩
    intro x old y new same
    obtain rfl := same
    have taken := (sound.taken x).mpr old
    simp only [List.mem_cons, List.not_mem_nil, or_false] at new
    rcases new with rfl | rfl
    · exact left taken
    · exact right taken

/-- A visit keeps the search sound. If it finds no pair at all, the visited vertex begins none. -/
theorem PairSearch.Sound.visit (layout : c.Layout line) {search : PairSearch}
    (sound : search.Sound c accept) (live : c.records.Live v r) (operation : r.isAnchor = false) :
    (search.visit c accept v r).Sound c accept ∧ ((search.visit c accept v r).pairs = [] →
      search.pairs = [] ∧ ∀ u, ¬ c.Cancellable accept v u) := by
  have refused : accept r.element = false → ∀ u, ¬ c.Cancellable accept v u := by
    intro refused u given
    obtain ⟨r', -, live', -, accepted, -⟩ := given
    rw [← live.unique live', refused] at accepted
    cases accepted
  have empty : search.pairs = [] → ∀ x, x ∉ search.taken := by
    intro none x member
    have inPairs := (sound.taken x).mp member
    rw [none] at inPairs
    cases inPairs
  unfold PairSearch.visit
  by_cases skip : (search.taken.contains v || !accept r.element) = true
  · rw [if_pos skip]
    refine ⟨sound, fun none => ⟨none, ?_⟩⟩
    rw [Bool.or_eq_true, List.contains_iff_mem, Bool.not_eq_true'] at skip
    rcases skip with taken | notAccepted
    · exact absurd taken (empty none v)
    · exact refused notAccepted
  · rw [if_neg skip]
    rw [Bool.or_eq_true, not_or, List.contains_iff_mem, Bool.not_eq_true',
      Bool.not_eq_false] at skip
    obtain ⟨free, accepted⟩ := skip
    have partner : ∀ u, c.cancellingPartner? v r = some u ↔ c.Cancellable accept v u := fun u =>
      layout.cancellingPartner?_eq_some_iff live operation accepted
    cases found : c.cancellingPartner? v r with
    | none =>
        refine ⟨sound, fun none => ⟨none, fun u cancellable => ?_⟩⟩
        cases found.symm.trans ((partner u).mpr cancellable)
    | some u =>
        have cancellable := (partner u).mp found
        simp only
        by_cases held : search.taken.contains u = true
        · rw [if_pos held]
          rw [List.contains_iff_mem] at held
          exact ⟨sound, fun none => absurd held (empty none u)⟩
        · rw [if_neg held]
          rw [List.contains_iff_mem] at held
          obtain ⟨r', s, twins⟩ := layout.cancellable_iff.mp cancellable
          exact ⟨sound.take cancellable (twins.ne layout) free held,
            fun none => absurd none (by simp)⟩

theorem PairSearch.Sound.foldl (layout : c.Layout line) {ops : List (VertexId × Record)}
    (operations : ∀ v r, (v, r) ∈ ops → c.records.Live v r ∧ r.isAnchor = false)
    {search : PairSearch} (sound : search.Sound c accept) :
    let result := ops.foldl (fun (s : PairSearch) (v, r) => s.visit c accept v r) search
    result.Sound c accept ∧ (result.pairs = [] → search.pairs = [] ∧
      ∀ v r u, (v, r) ∈ ops → ¬ c.Cancellable accept v u) := by
  induction ops generalizing search with
  | nil => exact ⟨sound, fun none => ⟨none, by simp⟩⟩
  | cons op ops ih =>
      obtain ⟨v, r⟩ := op
      obtain ⟨live, operation⟩ := operations v r List.mem_cons_self
      obtain ⟨visited, missed⟩ := sound.visit layout live operation
      obtain ⟨final, empty⟩ := ih (fun v r member =>
        operations v r (List.mem_cons_of_mem _ member)) visited
      refine ⟨final, fun none => ?_⟩
      obtain ⟨none, rest⟩ := empty none
      obtain ⟨none, here⟩ := missed none
      refine ⟨none, fun v' r' u member => ?_⟩
      rcases List.mem_cons.mp member with same | member
      · obtain ⟨rfl, rfl⟩ := Prod.mk.inj same
        exact here u
      · exact rest v' r' u member

/-- The pairs of a search are disjoint and cancel, and there are some if any pair cancels. -/
theorem Layout.cancellablePairs_spec (layout : c.Layout line) (accept : Element → Bool) :
    (∀ v u, (v, u) ∈ c.cancellablePairs accept → c.Cancellable accept v u) ∧
      (pairVertices (c.cancellablePairs accept)).Nodup ∧
      (c.cancellablePairs accept = [] ↔ ∀ v u, ¬ c.Cancellable accept v u) := by
  have start : ({} : PairSearch).Sound c accept :=
    ⟨by simp, by simp [pairVertices], by simp [pairVertices]⟩
  obtain ⟨sound, empty⟩ := PairSearch.Sound.foldl layout
    (fun v r => layout.mem_topologicalOperations.mp) start
  refine ⟨sound.cancellable, sound.nodup, fun none v u cancellable => ?_, fun none => ?_⟩
  · obtain ⟨r, s, live, operation, -⟩ := id cancellable
    exact (empty none).2 v r u (layout.mem_topologicalOperations.mpr ⟨live, operation⟩) cancellable
  · refine List.eq_nil_iff_forall_not_mem.mpr ?_
    intro given member
    obtain ⟨v, u⟩ := given
    exact none v u (sound.cancellable v u member)

end CircuitDag.Circuit
