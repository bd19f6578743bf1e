import CircuitDag.Proofs.Graph.TopologicalOrder

/-!
# The search for a path

The search expands every vertex once. It finds exactly the vertices that are reached from the start.
-/

set_option autoImplicit false

namespace CircuitDag.Graph

variable {g : Graph} {goal source target u v t : VertexId}

/-- The number of edges out of vertices that have not been expanded. -/
def unexpanded (g : Graph) (seen : List VertexId) : Nat :=
  g.edges.countP fun e => e.source ∉ seen

theorem unexpanded_cons {seen : List VertexId} (fresh : v ∉ seen) :
    g.unexpanded seen = g.unexpanded (v :: seen) + (g.targets v).length := by
  have length : (g.targets v).length = g.edges.countP (·.source = v) := by
    simp [targets, outEdges, edgesOutOf, List.countP_eq_length_filter]
  rw [length, unexpanded, unexpanded]
  induction g.edges with
  | nil => rfl
  | cons e es ih =>
      simp only [List.countP_cons, ih, List.mem_cons, not_or]
      by_cases same : e.source = v
      · subst same
        simp only [fresh, not_false_eq_true, not_true_eq_false, and_true, decide_true,
          decide_false, ↓reduceIte, Bool.false_eq_true]
        omega
      · simp only [same, not_false_eq_true, true_and, decide_false, Bool.false_eq_true,
          ↓reduceIte]
        omega

/-- When the search fails, some set of vertices that edges do not leave contains the stack and not
the goal. Each vertex that is taken from the stack costs a unit of fuel, and each edge puts a vertex
on the stack at most once. -/
theorem search_eq_false (fuel : Nat) {stack seen : List VertexId}
    (failed : g.search goal fuel stack seen = false) (absent : goal ∉ seen)
    (inner : ∀ u ∈ seen, ∀ t, g.Joins u t → t ∈ seen ++ stack)
    (enough : stack.length + g.unexpanded seen ≤ fuel) :
    ∃ reached : List VertexId, seen ++ stack ⊆ reached ∧ goal ∉ reached ∧
      ∀ u ∈ reached, ∀ t, g.Joins u t → t ∈ reached := by
  induction fuel generalizing stack seen with
  | zero =>
      obtain rfl := List.eq_nil_of_length_eq_zero (by omega : stack.length = 0)
      rw [List.append_nil] at inner ⊢
      exact ⟨seen, List.Subset.refl _, absent, inner⟩
  | succ fuel ih =>
      cases stack with
      | nil =>
          rw [List.append_nil] at inner ⊢
          exact ⟨seen, List.Subset.refl _, absent, inner⟩
      | cons v stack =>
          rw [search] at failed
          rw [List.length_cons] at enough
          split at failed
          · cases failed
          · next different =>
              split at failed
              · next old =>
                  have old : v ∈ seen := by simpa using old
                  have same : seen ++ v :: stack ⊆ seen ++ stack := by
                    intro t member
                    simp only [List.mem_append, List.mem_cons] at member ⊢
                    rcases member with inside | rfl | waiting
                    · exact .inl inside
                    · exact .inl old
                    · exact .inr waiting
                  obtain ⟨reached, included, rest⟩ := ih failed absent
                    (fun u member t joins => same (inner u member t joins)) (by omega)
                  exact ⟨reached, List.Subset.trans same included, rest⟩
              · next fresh =>
                  have fresh : v ∉ seen := by simpa using fresh
                  have more : seen ++ v :: stack ⊆ (v :: seen) ++ (g.targets v ++ stack) := by
                    intro t member
                    simp only [List.mem_append, List.mem_cons, List.cons_append] at member ⊢
                    tauto
                  have pushed :
                      (g.targets v ++ stack).length + g.unexpanded (v :: seen) ≤ fuel := by
                    have split := unexpanded_cons (g := g) fresh
                    rw [List.length_append]
                    omega
                  obtain ⟨reached, included, rest⟩ := ih failed
                    (by simp [absent, Ne.symm different])
                    (by
                      intro u member t joins
                      rcases List.mem_cons.mp member with rfl | inside
                      · have target : t ∈ g.targets u := mem_targets.mpr joins
                        exact List.mem_append_right _ (List.mem_append_left _ target)
                      · exact more (inner u inside t joins)) pushed
                  exact ⟨reached, List.Subset.trans more included, rest⟩

theorem not_reflTransGen_of_hasPath (missing : g.hasPath source target = false) :
    ¬ Relation.ReflTransGen g.Joins source target := by
  have enough : [source].length + g.unexpanded [] ≤ g.numEdges + 2 := by
    have bound : g.unexpanded [] ≤ g.numEdges := List.countP_le_length
    rw [List.length_singleton]
    omega
  obtain ⟨reached, included, absent, kept⟩ :=
    search_eq_false _ missing List.not_mem_nil (fun u member => absurd member List.not_mem_nil)
      enough
  have inside : ∀ t, Relation.ReflTransGen g.Joins source t → t ∈ reached := by
    intro t path
    induction path with
    | refl => exact included List.mem_cons_self
    | tail _ joins ih => exact kept _ ih _ joins
  exact fun path => absent (inside target path)

/-- What the search finds is reached from the stack. -/
theorem exists_path_of_search (fuel : Nat) {stack seen : List VertexId}
    (found : g.search goal fuel stack seen = true) :
    ∃ v ∈ stack, Relation.ReflTransGen g.Joins v goal := by
  induction fuel generalizing stack seen with
  | zero => cases found
  | succ fuel ih =>
      cases stack with
      | nil => cases found
      | cons v stack =>
          rw [search] at found
          split at found
          · next same => exact ⟨v, List.mem_cons_self, same ▸ .refl⟩
          · split at found
            · obtain ⟨u, waiting, path⟩ := ih found
              exact ⟨u, List.mem_cons_of_mem v waiting, path⟩
            · obtain ⟨u, pushed, path⟩ := ih found
              rcases List.mem_append.mp pushed with target | waiting
              · have joins : g.Joins v u := mem_targets.mp target
                exact ⟨v, List.mem_cons_self, .head joins path⟩
              · exact ⟨u, List.mem_cons_of_mem v waiting, path⟩

theorem hasPath_eq_true_iff :
    g.hasPath source target = true ↔ Relation.ReflTransGen g.Joins source target := by
  constructor
  · intro found
    obtain ⟨v, start, path⟩ := exists_path_of_search _ found
    obtain rfl := List.mem_singleton.mp start
    exact path
  · intro path
    by_contra missing
    exact not_reflTransGen_of_hasPath (Bool.eq_false_of_not_eq_true missing) path

end CircuitDag.Graph
