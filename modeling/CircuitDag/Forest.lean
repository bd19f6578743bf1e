/-!
# Forests

Places that are joined into trees step by step. Every place points to a parent, a root to itself.
A search for the root above a place shortens the way for later searches: it points places on its
way to the parents of their parents.
-/

set_option autoImplicit false

namespace CircuitDag

variable {n : Nat} {height : Fin n → Nat} {parents : Vector (Fin n) n}

/-- Every step to another parent leads to a smaller height. -/
def Descends (height : Fin n → Nat) (parents : Vector (Fin n) n) : Prop :=
  ∀ w, parents[w] ≠ w → height parents[w] < height w

theorem getElem_set_fin (parents : Vector (Fin n) n) (w p x : Fin n) :
    (parents.set w p)[x] = if x = w then p else parents[x] := by
  simp only [Fin.getElem_fin, Vector.getElem_set, Fin.ext_iff, eq_comm]

/-- Two steps at once descend as well. -/
theorem Descends.halve (descends : Descends height parents) (w : Fin n) :
    Descends height (parents.set w parents[parents[w]]) := by
  intro x
  rw [getElem_set_fin]
  by_cases here : x = w
  · subst here
    rw [if_pos rfl]
    intro moved
    by_cases top : parents[parents[x]] = parents[x]
    · rw [top] at moved ⊢
      exact descends x moved
    · have first : height parents[x] ≤ height x := by
        by_cases still : parents[x] = x
        · exact Nat.le_of_eq (congrArg height still)
        · exact Nat.le_of_lt (descends x still)
      exact Nat.lt_of_lt_of_le (descends parents[x] top) first
  · rw [if_neg here]
    exact descends x

/-- With all other places moved above a root, any place can be pointed to it. -/
theorem Descends.link {root : Fin n} (descends : Descends height parents)
    (isRoot : parents[root] = root) (w : Fin n) :
    Descends (fun x => if x = root then 0 else height x + 1) (parents.set w root) := by
  intro x moved
  have aside : x ≠ root := by
    rintro rfl
    rw [getElem_set_fin] at moved
    split at moved
    · exact moved rfl
    · exact moved isRoot
  rw [getElem_set_fin] at moved ⊢
  by_cases here : x = w
  · simp only [here ▸ aside, here, if_true, if_false]
    exact Nat.succ_pos _
  · simp only [here, aside, if_false] at moved ⊢
    split
    · exact Nat.succ_pos _
    · exact Nat.succ_lt_succ (descends x moved)

/-- Trees over the places `0, …, n - 1`. -/
structure Forest (n : Nat) where
  /-- The parent of each place. -/
  parents : Vector (Fin n) n
  /-- No steps to parents run in a circle. -/
  acyclic : ∃ height, Descends height parents

namespace Forest

def parent (f : Forest n) (w : Fin n) : Fin n := f.parents[w]

def IsRoot (f : Forest n) (w : Fin n) : Prop := f.parent w = w

instance (f : Forest n) (w : Fin n) : Decidable (f.IsRoot w) :=
  inferInstanceAs (Decidable (f.parent w = w))

/-- Every place is a tree of its own. -/
def discrete (n : Nat) : Forest n where
  parents := .ofFn fun w => w
  acyclic := ⟨fun _ => 0, fun _ moved => absurd (Vector.getElem_ofFn ..) moved⟩

/-- Points a place to the parent of its parent. -/
def halve (f : Forest n) (w : Fin n) : Forest n where
  parents := f.parents.set w (f.parent (f.parent w))
  acyclic := f.acyclic.imp fun _ descends => descends.halve w

theorem parent_halve (f : Forest n) (w x : Fin n) :
    (f.halve w).parent x = if x = w then f.parent (f.parent w) else f.parent x :=
  getElem_set_fin ..

/-- Points a place to a root. -/
def link (f : Forest n) (w root : Fin n) (isRoot : f.IsRoot root) : Forest n where
  parents := f.parents.set w root
  acyclic := f.acyclic.elim fun _ descends => ⟨_, descends.link isRoot w⟩

theorem parent_link (f : Forest n) (w x : Fin n) {root : Fin n} (isRoot : f.IsRoot root) :
    (f.link w root isRoot).parent x = if x = w then root else f.parent x :=
  getElem_set_fin ..

/-! ## Searching -/

/-- A search for a root: the forest, which it changes, and the place it has reached. -/
structure Search (n : Nat) where
  forest : Forest n
  place : Fin n

namespace Search

def AtRoot (s : Search n) : Prop := s.forest.IsRoot s.place

instance (s : Search n) : Decidable s.AtRoot := inferInstanceAs (Decidable (s.forest.IsRoot _))

/-- Points the place to the parent of its parent and goes there. -/
def climb (s : Search n) : Search n :=
  let forest := s.forest.halve s.place
  ⟨forest, forest.parent s.place⟩

/-- A search that is not over takes another step. -/
def Follows (later earlier : Search n) : Prop := ¬earlier.AtRoot ∧ later = earlier.climb

theorem height_climb_lt (s : Search n) (descends : Descends height s.forest.parents)
    (below : ¬s.AtRoot) : height s.climb.place < height s.place := by
  have landing : s.climb.place = s.forest.parent (s.forest.parent s.place) :=
    (s.forest.parent_halve ..).trans (if_pos rfl)
  have first : height (s.forest.parent s.place) < height s.place := descends s.place below
  rw [landing]
  by_cases top : s.forest.parent (s.forest.parent s.place) = s.forest.parent s.place
  · rw [top]
    exact first
  · exact Nat.lt_trans (descends _ top) first

/-- Searches only halve, which leaves heights as they are, so the falling height of the place shows
that they end. -/
theorem acc_follows (s : Search n) (descends : Descends height s.forest.parents) :
    Acc Follows s := by
  induction below : height s.place using Nat.strongRecOn generalizing s with
  | ind k ih =>
      refine .intro s fun later follows => ?_
      obtain ⟨notOver, rfl⟩ := follows
      exact ih _ (below ▸ s.height_climb_lt descends notOver) s.climb
        (descends.halve s.place) rfl

/-- No search goes on forever. -/
theorem wellFounded_follows : WellFounded (Follows (n := n)) :=
  ⟨fun s => s.forest.acyclic.elim fun _ descends => s.acc_follows descends⟩

instance : WellFoundedRelation (Search n) := ⟨Follows, wellFounded_follows⟩

def finish (s : Search n) : Search n := if s.AtRoot then s else s.climb.finish
termination_by s
decreasing_by exact ⟨‹_›, rfl⟩

theorem atRoot_finish (s : Search n) : s.finish.AtRoot := by
  induction s using finish.induct with
  | case1 s arrived => rwa [finish, if_pos arrived]
  | case2 s below ih => rwa [finish, if_neg below]

end Search

/-- Searches for the root above a place. -/
def find (f : Forest n) (w : Fin n) : Search n := Search.finish ⟨f, w⟩

/-! ## Joining -/

/-- Joins the trees of two places. -/
def join (f : Forest n) (a b : Fin n) : Forest n :=
  let first := f.find a
  let second := first.forest.find b
  if first.place = second.place then second.forest
  else second.forest.link first.place second.place (Search.atRoot_finish _)

/-- Joins the trees of all places of a list. -/
def joinAll : List (Fin n) → Forest n → Forest n
  | a :: b :: ws, f => joinAll (b :: ws) (f.join a b)
  | _, f => f

/-! ## Counting -/

/-- Counts the places of a list at which a search for the root above them ends. -/
def countRootsAmong : List (Fin n) → Forest n → Nat
  | [], _ => 0
  | w :: ws, f =>
      let found := f.find w
      countRootsAmong ws found.forest + if found.place = w then 1 else 0

def countRoots (f : Forest n) : Nat := countRootsAmong (List.finRange n) f

end Forest

end CircuitDag
