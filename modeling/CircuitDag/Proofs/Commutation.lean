import CircuitDag.Proofs.Adjacent
import Mathlib.Algebra.BigOperators.Group.List.Basic
import Mathlib.Algebra.Group.Commute.Basic

/-!
# Products over reordered lists

The product over a list does not depend on the order of elements whose factors commute, and two
equal factors that square to one cancel if everything between them commutes with them.
-/

set_option autoImplicit false

namespace CircuitDag

section Order

variable {α : Type} {l front back : List α} {a b : α}

/-- `a` comes before `b` in a list. -/
def Before (l : List α) (a b : α) : Prop := [a, b].Sublist l

theorem before_iff : Before l a b ↔ ∃ front back, l = front ++ a :: back ∧ b ∈ back := by
  constructor
  · intro before
    obtain ⟨front, rest, rfl, first, second⟩ := List.cons_sublist_iff.mp before
    obtain ⟨left, right, rfl⟩ := List.append_of_mem first
    exact ⟨left, right ++ rest, by simp,
      List.mem_append_right right (List.singleton_sublist.mp second)⟩
  · intro given
    obtain ⟨front, back, rfl, member⟩ := given
    exact ((List.singleton_sublist.mpr member).cons_cons a).trans (List.sublist_append_right ..)

theorem Before.mem (before : Before l a b) : a ∈ l ∧ b ∈ l :=
  ⟨before.subset List.mem_cons_self, before.subset (by simp)⟩

theorem Before.mem_front (before : Before (front ++ b :: back) a b)
    (unique : (front ++ b :: back).Nodup) : a ∈ front := by
  induction front with
  | nil =>
      have fresh := (List.nodup_cons.mp unique).1
      cases before with
      | cons _ before => exact absurd (before.subset (by simp)) fresh
      | cons_cons _ rest => exact absurd (List.singleton_sublist.mp rest) fresh
  | cons x front ih =>
      cases before with
      | cons _ before => exact List.mem_cons_of_mem x (ih before (List.nodup_cons.mp unique).2)
      | cons_cons _ _ => exact List.mem_cons_self

theorem Before.asymm (before : Before l a b) (unique : l.Nodup) : ¬ Before l b a := by
  intro after
  obtain ⟨front, back, rfl, member⟩ := before_iff.mp before
  have inFront := after.mem_front unique
  exact (List.nodup_append.mp unique).2.2 b inFront b (List.mem_cons_of_mem a member) rfl

theorem before_or_before (different : a ≠ b) (left : a ∈ l) (right : b ∈ l) :
    Before l a b ∨ Before l b a := by
  obtain ⟨front, back, rfl⟩ := List.append_of_mem left
  rcases List.mem_append.mp right with inFront | inBack
  · obtain ⟨first, rest, rfl⟩ := List.append_of_mem inFront
    exact .inr (before_iff.mpr ⟨first, rest ++ a :: back, by simp, by simp⟩)
  · rcases List.mem_cons.mp inBack with same | inBack
    · exact absurd same.symm different
    · exact .inl (before_iff.mpr ⟨front, back, rfl, inBack⟩)

theorem Before.of_sublist {part : List α} (before : Before l a b) (included : part.Sublist l)
    (unique : l.Nodup) (different : a ≠ b) (left : a ∈ part) (right : b ∈ part) :
    Before part a b := by
  rcases before_or_before different left right with here | after
  · exact here
  · exact absurd (List.Sublist.trans after included) (before.asymm unique)

theorem Adjacent.before (adjacent : Adjacent l a b) : Before l a b := by
  obtain ⟨front, back, rfl⟩ := adjacent
  exact before_iff.mpr ⟨front, b :: back, rfl, List.mem_cons_self⟩

theorem Adjacent.not_between {x : α} (adjacent : Adjacent l a b) (unique : l.Nodup)
    (first : Before l a x) : ¬ Before l x b := by
  intro second
  obtain ⟨front, back, rfl⟩ := adjacent
  have second : Before ((front ++ [a]) ++ b :: back) x b := by simpa using second
  have inFront := second.mem_front (by simpa using unique)
  rcases List.mem_append.mp inFront with inFront | same
  · obtain ⟨left, right, rfl⟩ := List.append_of_mem inFront
    refine first.asymm unique (before_iff.mpr ⟨left, right ++ a :: b :: back, by simp, by simp⟩)
  · rw [List.mem_singleton] at same
    subst same
    exact first.asymm unique first

theorem notMem_of_nodup_pair {middle : List α}
    (unique : (front ++ a :: middle ++ b :: back).Nodup) :
    a ∉ front ++ middle ++ back ∧ b ∉ front ++ middle ++ back := by
  have perm : (front ++ a :: middle ++ b :: back).Perm (a :: b :: (front ++ middle ++ back)) := by
    have second : (front ++ a :: middle ++ b :: back).Perm (b :: (front ++ a :: middle ++ back)) :=
      List.perm_middle
    have first : (front ++ a :: (middle ++ back)).Perm (a :: (front ++ (middle ++ back))) :=
      List.perm_middle
    refine second.trans (List.Perm.trans ?_ (List.Perm.swap a b _))
    refine List.Perm.cons b ?_
    simp only [List.append_assoc, List.cons_append] at first ⊢
    exact first
  have unique := perm.nodup_iff.mp unique
  simp only [List.nodup_cons, List.mem_cons, not_or] at unique
  exact ⟨unique.1.2, unique.2.1⟩

/-- A list is a part of another one if neighbours come in the same order there. -/
theorem sublist_of_before {order : List α} (unique : order.Nodup)
    (included : ∀ x, l.head? = some x → x ∈ order)
    (steps : ∀ a b, Adjacent l a b → Before order a b) : l.Sublist order := by
  have behind : ∀ (l : List α) (x : α) (front back : List α), order = front ++ x :: back →
      (∀ a b, Adjacent (x :: l) a b → Before order a b) → l.Sublist back := by
    intro l
    induction l with
    | nil => exact fun _ _ back _ _ => List.nil_sublist back
    | cons y l ih =>
        intro x front back same steps
        obtain rfl := same
        have before := steps x y (adjacent_cons.mpr (.inl ⟨rfl, rfl⟩))
        have member : y ∈ back := by
          rcases List.mem_append.mp before.mem.2 with inFront | inBack
          · obtain ⟨left, right, rfl⟩ := List.append_of_mem inFront
            have after : Before (left ++ y :: right ++ x :: back) y x :=
              before_iff.mpr ⟨left, right ++ x :: back, by simp, by simp⟩
            exact absurd after (before.asymm unique)
          · rcases List.mem_cons.mp inBack with rfl | inBack
            · exact absurd before (before.asymm unique)
            · exact inBack
        obtain ⟨middle, rest, rfl⟩ := List.append_of_mem member
        have next := ih y (front ++ x :: middle) rest (by simp)
          fun a b adjacent => steps a b (adjacent_cons.mpr (.inr adjacent))
        exact (next.cons_cons y).trans (List.sublist_append_right ..)
  cases l with
  | nil => exact List.nil_sublist order
  | cons x l =>
      obtain ⟨front, back, shape⟩ := List.append_of_mem (included x rfl)
      have rest := behind l x front back shape steps
      rw [shape]
      exact (rest.cons_cons x).trans (List.sublist_append_right ..)

end Order

section Products

variable {α : Type} {M : Type*} [Monoid M] {f : α → M}

/-- Two orders of the same elements have the same product if all pairs that they order differently
commute. -/
theorem prod_eq_of_order {l l' : List α} (perm : l.Perm l')
    (swaps : ∀ a b, Before l a b → Before l' b a → Commute (f a) (f b)) :
    (l.map f).prod = (l'.map f).prod := by
  induction l generalizing l' with
  | nil => rw [perm.nil_eq]
  | cons x l ih =>
      obtain ⟨front, back, rfl⟩ := List.append_of_mem (perm.mem_iff.mp List.mem_cons_self)
      have rest : l.Perm (front ++ back) := (perm.trans List.perm_middle).cons_inv
      have included : (front ++ back).Sublist (front ++ x :: back) :=
        (List.Sublist.refl front).append (List.sublist_cons_self x back)
      have commutes : Commute (f x) (front.map f).prod := by
        refine Commute.list_prod_right _ _ fun y member => ?_
        obtain ⟨a, inFront, rfl⟩ := List.mem_map.mp member
        refine swaps x a (before_iff.mpr ⟨[], l, rfl, ?_⟩) ?_
        · exact rest.mem_iff.mpr (List.mem_append_left back inFront)
        · obtain ⟨left, right, rfl⟩ := List.append_of_mem inFront
          exact before_iff.mpr ⟨left, right ++ x :: back, by simp, by simp⟩
      have tail := ih rest fun a b before after =>
        swaps a b (List.Sublist.cons x before) (List.Sublist.trans after included)
      rw [List.map_cons, List.prod_cons, tail, List.map_append, List.prod_append, ← mul_assoc,
        commutes.eq, List.map_append, List.prod_append, List.map_cons, List.prod_cons, mul_assoc]

/-- Two equal factors that square to one cancel over factors that commute with them. -/
theorem prod_cancel {front middle back : List α} {a b : α} (same : f b = f a)
    (square : f a * f a = 1) (commutes : ∀ x ∈ middle, Commute (f a) (f x)) :
    ((front ++ a :: middle ++ b :: back).map f).prod = ((front ++ middle ++ back).map f).prod := by
  have across : Commute (f a) (middle.map f).prod := by
    refine Commute.list_prod_right _ _ fun y member => ?_
    obtain ⟨x, inMiddle, rfl⟩ := List.mem_map.mp member
    exact commutes x inMiddle
  have cancel : f a * (middle.map f).prod * f a = (middle.map f).prod := by
    rw [across.eq, mul_assoc, square, mul_one]
  simp only [List.map_append, List.map_cons, List.prod_append, List.prod_cons, same]
  calc (front.map f).prod * (f a * (middle.map f).prod) * (f a * (back.map f).prod)
      = (front.map f).prod * (f a * (middle.map f).prod * f a) * (back.map f).prod := by
        simp only [mul_assoc]
    _ = (front.map f).prod * (middle.map f).prod * (back.map f).prod := by rw [cancel]

end Products

end CircuitDag
