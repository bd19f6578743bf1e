/-!
# Sorted lists without repetition

Insertion into a list that is kept in increasing order of a comparison.
-/

set_option autoImplicit false

namespace CircuitDag

variable {α : Type}

/-- Inserts an element before the first one that is not smaller; an element that is there already
is not repeated. -/
def insertSorted [DecidableEq α] (less : α → α → Bool) (x : α) : List α → List α
  | [] => [x]
  | y :: ys =>
      if x = y then y :: ys
      else if less x y then x :: y :: ys
      else y :: insertSorted less x ys

def sortedSet [DecidableEq α] (less : α → α → Bool) (xs : List α) : List α :=
  xs.foldr (insertSorted less) []

@[simp]
theorem mem_insertSorted [DecidableEq α] (less : α → α → Bool) (x y : α) (xs : List α) :
    y ∈ insertSorted less x xs ↔ y = x ∨ y ∈ xs := by
  induction xs with
  | nil => simp [insertSorted]
  | cons z zs ih =>
    simp only [insertSorted]
    split
    · next same => subst same; simp
    · split
      · simp
      · simp only [List.mem_cons, ih]
        constructor <;> rintro (h | h | h) <;> simp [h]

@[simp]
theorem mem_sortedSet [DecidableEq α] (less : α → α → Bool) (y : α) (xs : List α) :
    y ∈ sortedSet less xs ↔ y ∈ xs := by
  induction xs with
  | nil => simp [sortedSet]
  | cons x xs ih => simpa [sortedSet] using or_congr_right ih

theorem insertSorted_perm [DecidableEq α] (less : α → α → Bool) {x : α} {xs : List α}
    (fresh : x ∉ xs) : (insertSorted less x xs).Perm (x :: xs) := by
  induction xs with
  | nil => exact List.Perm.refl _
  | cons y ys ih =>
    rw [List.mem_cons, not_or] at fresh
    simp only [insertSorted, fresh.1, ↓reduceIte]
    split
    · exact List.Perm.refl _
    · exact ((ih fresh.2).cons y).trans (List.Perm.swap x y ys)

theorem sortedSet_perm [DecidableEq α] (less : α → α → Bool) {xs : List α} (unique : xs.Nodup) :
    (sortedSet less xs).Perm xs := by
  induction xs with
  | nil => exact List.Perm.refl _
  | cons x xs ih =>
    obtain ⟨fresh, rest⟩ := List.nodup_cons.mp unique
    have fresh : x ∉ sortedSet less xs := by simpa using fresh
    exact (insertSorted_perm less fresh).trans ((ih rest).cons x)

/-! ## Strict orders -/

section Ordered

variable [DecidableEq α] {less : α → α → Bool} (irrefl : ∀ a, less a a = false)
  (trans : ∀ a b c, less a b = true → less b c = true → less a c = true)
  (total : ∀ a b, a ≠ b → less a b = false → less b a = true)

include trans total in
theorem pairwise_insertSorted {xs : List α} (sorted : xs.Pairwise (less · · = true)) (x : α) :
    (insertSorted less x xs).Pairwise (less · · = true) := by
  induction xs with
  | nil => exact List.pairwise_singleton ..
  | cons y ys ih =>
      obtain ⟨first, rest⟩ := List.pairwise_cons.mp sorted
      simp only [insertSorted]
      split
      · exact sorted
      · next different =>
          split
          · next before =>
              refine List.pairwise_cons.mpr ⟨fun z member => ?_, sorted⟩
              rcases List.mem_cons.mp member with rfl | later
              · exact before
              · exact trans x y z before (first z later)
          · next behind =>
              refine List.pairwise_cons.mpr ⟨fun z member => ?_, ih rest⟩
              rcases (mem_insertSorted ..).mp member with rfl | later
              · exact total z y different (Bool.eq_false_iff.mpr behind)
              · exact first z later

include trans total in
theorem pairwise_sortedSet (xs : List α) : (sortedSet less xs).Pairwise (less · · = true) := by
  induction xs with
  | nil => exact List.Pairwise.nil
  | cons x xs ih => exact pairwise_insertSorted trans total ih x

include irrefl trans total in
/-- A list that increases strictly is the sorted set of every list with the same elements. -/
theorem sortedSet_eq {xs l : List α} (sorted : l.Pairwise (less · · = true))
    (same : ∀ x, x ∈ l ↔ x ∈ xs) : sortedSet less xs = l := by
  have nodup : ∀ {l : List α}, l.Pairwise (less · · = true) → l.Nodup := fun increasing =>
    increasing.imp fun before equal => by rw [equal, irrefl] at before; cases before
  have increasing := pairwise_sortedSet trans total xs
  refine List.Perm.eq_of_pairwise (fun a b _ _ before after => ?_)
    increasing sorted ?_
  · have circle := trans a b a before after
    rw [irrefl] at circle
    cases circle
  · exact (List.perm_ext_iff_of_nodup (nodup increasing) (nodup sorted)).mpr fun x =>
      (mem_sortedSet ..).trans (same x).symm

end Ordered

end CircuitDag
