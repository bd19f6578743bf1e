import Mathlib.Data.List.Basic
import Mathlib.Logic.Relation

/-!
# Rearranging independent elements

Every element of a list stands at some places, and two elements are independent if no place is
common to both. Swapping independent neighbours changes no part of the list that stands at one
place. Conversely, two lists that agree at every place are rearrangements of each other.
-/

set_option autoImplicit false

namespace CircuitDag

variable {α β : Type} {places : α → List β} {l l' front back : List α} {a b : α}

/-- Two neighbours that share no place have changed their order. -/
inductive Swap (places : α → List β) : List α → List α → Prop where
  | intro (front : List α) (a b : α) (back : List α)
      (independent : (places a).Disjoint (places b)) :
      Swap places (front ++ a :: b :: back) (front ++ b :: a :: back)

/-- A list comes from another one by finitely many swaps of neighbours that share no place. -/
def Rearranged (places : α → List β) : List α → List α → Prop :=
  Relation.ReflTransGen (Swap places)

theorem Swap.symm (swap : Swap places l l') : Swap places l' l := by
  obtain ⟨front, a, b, back, independent⟩ := swap
  exact ⟨front, b, a, back, List.disjoint_symm independent⟩

theorem Swap.cons (a : α) (swap : Swap places l l') : Swap places (a :: l) (a :: l') := by
  obtain ⟨front, x, y, back, independent⟩ := swap
  exact ⟨a :: front, x, y, back, independent⟩

theorem Rearranged.symm (rearranged : Rearranged places l l') : Rearranged places l' l := by
  induction rearranged with
  | refl => exact .refl
  | tail _ swap ih => exact ih.head swap.symm

theorem Rearranged.cons (a : α) (rearranged : Rearranged places l l') :
    Rearranged places (a :: l) (a :: l') :=
  Relation.ReflTransGen.lift (a :: ·) (fun _ _ => Swap.cons a) _ _ rearranged

/-- An element moves to the front past elements that it shares no place with. -/
theorem rearranged_front (independent : ∀ x ∈ front, (places x).Disjoint (places a)) :
    Rearranged places (front ++ a :: back) (a :: (front ++ back)) := by
  induction front with
  | nil => exact .refl
  | cons x front ih =>
      rw [List.forall_mem_cons] at independent
      exact (Rearranged.cons x (ih independent.2)).tail ⟨[], x, a, front ++ back, independent.1⟩

variable [DecidableEq β]

/-- The elements of a list that stand at one place. -/
def standingAt (places : α → List β) (place : β) (l : List α) : List α :=
  l.filter fun a => place ∈ places a

theorem standingAt_append (place : β) : standingAt places place (l ++ l') =
    standingAt places place l ++ standingAt places place l' := List.filter_append ..

theorem standingAt_cons_of_mem {place : β} (here : place ∈ places a) :
    standingAt places place (a :: l) = a :: standingAt places place l :=
  List.filter_cons_of_pos (decide_eq_true here)

theorem standingAt_cons_of_notMem {place : β} (elsewhere : place ∉ places a) :
    standingAt places place (a :: l) = standingAt places place l :=
  List.filter_cons_of_neg fun here => elsewhere (of_decide_eq_true here)

theorem Swap.standingAt_eq (swap : Swap places l l') (place : β) :
    standingAt places place l = standingAt places place l' := by
  obtain ⟨front, a, b, back, independent⟩ := swap
  rw [standingAt_append, standingAt_append]
  by_cases left : place ∈ places a
  · have right : place ∉ places b := fun right => independent left right
    rw [standingAt_cons_of_mem left, standingAt_cons_of_notMem right,
      standingAt_cons_of_notMem right, standingAt_cons_of_mem left]
  · by_cases right : place ∈ places b
    · rw [standingAt_cons_of_notMem left, standingAt_cons_of_mem right,
        standingAt_cons_of_mem right, standingAt_cons_of_notMem left]
    · rw [standingAt_cons_of_notMem left, standingAt_cons_of_notMem right,
        standingAt_cons_of_notMem right, standingAt_cons_of_notMem left]

theorem Rearranged.standingAt_eq (rearranged : Rearranged places l l') (place : β) :
    standingAt places place l = standingAt places place l' := by
  induction rearranged with
  | refl => rfl
  | tail _ swap ih => exact ih.trans (swap.standingAt_eq place)

/-- The first element of a list is found in every list that agrees with it at all places, and what
comes before it there shares no place with it. -/
theorem exists_independent_front (somewhere : places a ≠ [])
    (agree : ∀ place, standingAt places place (a :: l) = standingAt places place l') :
    ∃ front back, l' = front ++ a :: back ∧ ∀ x ∈ front, (places x).Disjoint (places a) := by
  have first : ∀ place ∈ places a, ∃ rest, standingAt places place l' = a :: rest := by
    intro place here
    exact ⟨_, (agree place).symm.trans (standingAt_cons_of_mem here)⟩
  clear agree
  induction l' with
  | nil =>
      obtain ⟨place, here⟩ := List.exists_mem_of_ne_nil _ somewhere
      obtain ⟨rest, same⟩ := first place here
      exact absurd same (List.cons_ne_nil _ _).symm
  | cons x l' ih =>
      by_cases meets : ∃ place ∈ places a, place ∈ places x
      · obtain ⟨place, here, there⟩ := meets
        obtain ⟨rest, same⟩ := first place here
        rw [standingAt_cons_of_mem there] at same
        obtain rfl := (List.cons.inj same).1
        exact ⟨[], l', rfl, nofun⟩
      · have apart : ∀ place ∈ places a, place ∉ places x := fun place here there =>
          meets ⟨place, here, there⟩
        obtain ⟨front, back, rfl, independent⟩ := ih fun place here => by
          obtain ⟨rest, same⟩ := first place here
          exact ⟨rest, (standingAt_cons_of_notMem (apart place here)).symm.trans same⟩
        refine ⟨x :: front, back, rfl, List.forall_mem_cons.mpr ⟨?_, independent⟩⟩
        exact fun place there here => apart place here there

/-- Lists that agree at every place are rearrangements of each other. -/
theorem rearranged_of_standingAt_eq (somewhere : ∀ a ∈ l, places a ≠ [])
    (somewhere' : ∀ a ∈ l', places a ≠ [])
    (agree : ∀ place, standingAt places place l = standingAt places place l') :
    Rearranged places l l' := by
  induction l generalizing l' with
  | nil =>
      cases l' with
      | nil => exact .refl
      | cons x l' =>
          obtain ⟨place, here⟩ := List.exists_mem_of_ne_nil _ (somewhere' x List.mem_cons_self)
          have same := agree place
          rw [standingAt_cons_of_mem here] at same
          exact absurd same (List.cons_ne_nil _ _).symm
  | cons a l ih =>
      rw [List.forall_mem_cons] at somewhere
      obtain ⟨front, back, rfl, independent⟩ := exists_independent_front somewhere.1 agree
      have moved : Rearranged places (a :: (front ++ back)) (front ++ a :: back) :=
        (rearranged_front independent).symm
      refine (Rearranged.cons a (ih somewhere.2 (fun x member => ?_) fun place => ?_)).trans moved
      · refine somewhere' x ?_
        rcases List.mem_append.mp member with inFront | inBack
        · exact List.mem_append_left _ inFront
        · exact List.mem_append_right _ (List.mem_cons_of_mem a inBack)
      · have same := (agree place).trans (moved.standingAt_eq place).symm
        by_cases here : place ∈ places a
        · rw [standingAt_cons_of_mem here, standingAt_cons_of_mem here] at same
          exact (List.cons.inj same).2
        · rwa [standingAt_cons_of_notMem here, standingAt_cons_of_notMem here] at same

/-- Lists agree at every place exactly if they are rearrangements of each other. -/
theorem standingAt_eq_iff_rearranged (somewhere : ∀ a ∈ l, places a ≠ [])
    (somewhere' : ∀ a ∈ l', places a ≠ []) :
    (∀ place, standingAt places place l = standingAt places place l') ↔
      Rearranged places l l' :=
  ⟨rearranged_of_standingAt_eq somewhere somewhere', Rearranged.standingAt_eq⟩

end CircuitDag
