import CircuitDag.Proofs.Circuit.Labels
import CircuitDag.Proofs.Circuit.Reachable
import CircuitDag.Proofs.Forest

/-!
# Tensor factors

The wires of every operation are joined in a forest over all wires. Its trees are the classes of the
least equivalence that relates any two wires of one operation, in whatever order operations come.
-/

set_option autoImplicit false

namespace CircuitDag.Circuit

variable {c : Circuit} {line : WireId → List VertexId} {n : Nat} {a b : Fin n}

theorem mem_places {ws : List WireId} : a ∈ places n ws ↔ ↑a ∈ ws := by
  simp only [places, List.mem_filterMap, Option.dite_none_right_eq_some, Option.some.injEq]
  constructor
  · rintro ⟨w, member, inside, rfl⟩
    exact member
  · exact fun member => ⟨a, member, a.isLt, rfl⟩

/-- Some operation stands on both wires. -/
def SharesOperation (c : Circuit) (a b : Fin c.numWires) : Prop :=
  ∃ v r, c.records.Live v r ∧ r.isAnchor = false ∧ ↑a ∈ r.wires ∧ ↑b ∈ r.wires

/-- Wires are in the same tree exactly if operations connect them. -/
theorem trees_wireForest (c : Circuit) :
    c.wireForest.trees = Relation.EqvGen.setoid c.SharesOperation := by
  let groups := (c.records.live.filter fun e => !e.2.isAnchor).map fun e =>
    places c.numWires e.2.wires
  have joined : c.wireForest = groups.foldl (fun f ws => f.joinAll ws) (.discrete c.numWires) := by
    rw [wireForest, List.foldl_map, List.foldl_filter]
    congr 1
    funext f e
    cases anchor : e.2.isAnchor <;> simp [anchor]
  have mem_groups (ws : List (Fin c.numWires)) : ws ∈ groups ↔
      ∃ v r, c.records.Live v r ∧ r.isAnchor = false ∧ places c.numWires r.wires = ws := by
    simp [groups, Records.mem_live, and_assoc]
  refine eq_of_forall_ge_iff fun S => ?_
  rw [joined, Forest.trees_foldl_joinAll_le_iff]
  constructor
  · intro ⟨_, related⟩
    refine Setoid.eqvGen_le fun a b shared => ?_
    obtain ⟨v, r, live, operation, onA, onB⟩ := shared
    have listed := (mem_groups _).mpr ⟨v, r, live, operation, rfl⟩
    exact related _ listed a (mem_places.mpr onA) b (mem_places.mpr onB)
  · intro within
    refine ⟨Forest.trees_discrete_le, fun ws listed a onA b onB => within (.rel a b ?_)⟩
    obtain ⟨v, r, live, operation, rfl⟩ := (mem_groups ws).mp listed
    exact ⟨v, r, live, operation, mem_places.mp onA, mem_places.mp onB⟩

theorem numTensorFactors_eq_card (c : Circuit) :
    c.numTensorFactors = Nat.card (Quotient (Relation.EqvGen.setoid c.SharesOperation)) := by
  rw [numTensorFactors, Forest.countRoots_eq_card, trees_wireForest]

/-- Some label has both wires. -/
def Together (n : Nat) (labels : List Label) (a b : Fin n) : Prop :=
  ∃ label ∈ labels, ↑a ∈ label.wires ∧ ↑b ∈ label.wires

/-- The parts are those that the wires of the labels form. -/
theorem Layout.numTensorFactors_eq (layout : c.Layout line) : c.numTensorFactors =
    Nat.card (Quotient (Relation.EqvGen.setoid (Together c.numWires c.labels))) := by
  have same : c.SharesOperation = Together c.numWires c.labels := by
    funext a b
    simp [SharesOperation, Together, labels, Record.label, Operation.label,
      layout.mem_topologicalOperations, and_assoc]
  rw [numTensorFactors_eq_card, same]

/-- Operations stand on wires of the forest only, and no search in it goes on forever. There are as
many factors as classes of the least equivalence that relates the wires of each operation. -/
theorem numTensorFactors_counts_components (reachable : c.Reachable) :
    (∀ v r, c.records.Live v r → r.isAnchor = false → ∀ w ∈ r.wires, w < c.numWires) ∧
    WellFounded (Forest.Search.Follows (n := c.numWires)) ∧
    c.numTensorFactors = Nat.card (Quotient (Relation.EqvGen.setoid c.SharesOperation)) := by
  refine ⟨fun v r live _ w member => ?_, Forest.Search.wellFounded_follows,
    c.numTensorFactors_eq_card⟩
  obtain ⟨line, layout⟩ := reachable.laidOut
  obtain ⟨i, position⟩ := List.getElem?_of_mem member
  exact ((layout.wired v r live).placed i w position).1

/-- A controlled-X gate on two of three qubits, and a measurement of the third one. -/
theorem numTensorFactors_counts_components_measured :
    let c := Change.after (Change.after (blank 3 1) (.addOperation { element := .cx } [0, 1] []))
      (.addOperation { element := .measure } [2] [3])
    Nat.card (Quotient (Relation.EqvGen.setoid c.SharesOperation)) = 2 := by
  intro c
  have reachable : c.Reachable :=
    ((Reachable.blank 3 1 Binary64.zero).change (.addOperation { element := .cx } [0, 1] [])).change
      (.addOperation { element := .measure } [2] [3])
  obtain ⟨-, -, counted⟩ := numTensorFactors_counts_components reachable
  have forest : c.numTensorFactors =
      (((Forest.discrete 4).joinAll [0, 1]).joinAll [2, 3]).countRoots := rfl
  have two : (((Forest.discrete 4).joinAll [0, 1]).joinAll [2, 3]).countRoots = 2 := by
    rw [Forest.countRoots, Forest.countRootsAmong_eq]
    simp only [Forest.joinAll, Forest.root_join, Forest.root_discrete]
    decide
  exact counted.symm.trans (forest.trans two)

end CircuitDag.Circuit
