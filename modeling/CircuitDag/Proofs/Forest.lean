import CircuitDag.Forest
import Mathlib.Data.Setoid.Basic
import Mathlib.SetTheory.Cardinal.Finite

/-!
# The trees of a forest

Each place has one root above it, and searches change no roots. Joining makes the least partition
that is coarser than the trees so far and relates the places that are joined, so a forest has as
many roots as there are classes.
-/

set_option autoImplicit false

namespace CircuitDag.Forest

variable {n : Nat} {f g : Forest n} {a b w x y r r' : Fin n} {ws : List (Fin n)}

/-! ## Roots -/

/-- Steps to parents lead from a place to a root. -/
inductive Leads (f : Forest n) : Fin n → Fin n → Prop
  | root {r : Fin n} : f.IsRoot r → Leads f r r
  | step {w r : Fin n} : Leads f (f.parent w) r → Leads f w r

theorem leads_parent_iff : f.Leads (f.parent w) r ↔ f.Leads w r := by
  refine ⟨.step, fun leads => ?_⟩
  cases leads with
  | root isRoot => exact isRoot.symm ▸ .root isRoot
  | step leads => exact leads

theorem Leads.isRoot (leads : f.Leads w r) : f.IsRoot r := by
  induction leads with
  | root isRoot => exact isRoot
  | step _ ih => exact ih

theorem Leads.eq_of_isRoot (leads : f.Leads w r) (isRoot : f.IsRoot w) : r = w := by
  induction leads with
  | root => rfl
  | step _ ih => exact (ih (isRoot.symm ▸ isRoot)).trans isRoot

theorem Leads.unique (leads : f.Leads w r) (leads' : f.Leads w r') : r' = r := by
  induction leads with
  | root isRoot => exact leads'.eq_of_isRoot isRoot
  | step _ ih => exact ih (leads_parent_iff.mpr leads')

theorem exists_leads (f : Forest n) (w : Fin n) : ∃ r, f.Leads w r := by
  obtain ⟨height, descends⟩ := f.acyclic
  induction above : height w using Nat.strongRecOn generalizing w with
  | ind k ih =>
      by_cases isRoot : f.IsRoot w
      · exact ⟨w, .root isRoot⟩
      · obtain ⟨r, leads⟩ := ih _ (above ▸ descends w isRoot) (f.parent w) rfl
        exact ⟨r, leads.step⟩

/-- Places that keep their roots get no others. -/
theorem leads_iff_of_forall (kept : ∀ r, f.Leads x r → g.Leads x r) :
    g.Leads x r ↔ f.Leads x r := by
  refine ⟨fun leads => ?_, kept r⟩
  obtain ⟨r', leads'⟩ := f.exists_leads x
  exact leads.unique (kept r' leads') ▸ leads'

/-! ## Searches -/

theorem Leads.halve (leads : f.Leads x r) (w : Fin n) : (f.halve w).Leads x r := by
  induction leads with
  | @root r isRoot =>
      refine .root ?_
      rw [IsRoot, parent_halve]
      split
      case isTrue here => rw [← here, isRoot, isRoot]
      case isFalse => exact isRoot
  | @step x r _ ih =>
      refine .step ?_
      rw [parent_halve]
      by_cases here : x = w
      · subst here
        rw [if_pos rfl]
        by_cases top : f.parent x = x
        · rw [top] at ih
          rwa [top, top]
        · -- The parent of the place has kept its own parent.
          have kept : (f.halve x).parent (f.parent x) = f.parent (f.parent x) := by
            rw [parent_halve, if_neg top]
          exact kept ▸ leads_parent_iff.mpr ih
      · rwa [if_neg here]

theorem leads_halve_iff : (f.halve w).Leads x r ↔ f.Leads x r :=
  leads_iff_of_forall fun _ leads => leads.halve w

theorem Search.leads_finish_iff {s : Search n} :
    s.finish.forest.Leads x r ↔ s.forest.Leads x r := by
  induction s using Search.finish.induct with
  | case1 s arrived => rw [Search.finish, if_pos arrived]
  | case2 s below ih =>
      rw [Search.finish, if_neg below, ih]
      exact leads_halve_iff

theorem Search.leads_place_finish (s : Search n) : s.forest.Leads s.place s.finish.place := by
  induction s using Search.finish.induct with
  | case1 s arrived =>
      rw [Search.finish, if_pos arrived]
      exact .root arrived
  | case2 s below ih =>
      rw [Search.finish, if_neg below]
      exact leads_halve_iff.mp (leads_parent_iff.mp ih)

/-- The root above a place. -/
def root (f : Forest n) (w : Fin n) : Fin n := (f.find w).place

theorem leads_root (f : Forest n) (w : Fin n) : f.Leads w (f.root w) :=
  Search.leads_place_finish ⟨f, w⟩

theorem root_eq_iff : f.root w = r ↔ f.Leads w r :=
  ⟨fun found => found ▸ f.leads_root w, fun leads => leads.unique (f.leads_root w)⟩

theorem root_root (f : Forest n) (w : Fin n) : f.root (f.root w) = f.root w :=
  root_eq_iff.mpr (.root (f.leads_root w).isRoot)

theorem root_discrete (w : Fin n) : (discrete n).root w = w :=
  root_eq_iff.mpr (.root (by simp [IsRoot, parent, discrete]))

theorem leads_forest_find_iff : (f.find w).forest.Leads x r ↔ f.Leads x r :=
  Search.leads_finish_iff

/-- A search changes the forest, but no roots. -/
theorem root_forest_find (f : Forest n) (w x : Fin n) : (f.find w).forest.root x = f.root x :=
  root_eq_iff.mpr (leads_forest_find_iff.mpr (f.leads_root x))

/-! ## Joins -/

/-- When a root is pointed to another one, the places below it get that one. -/
theorem Leads.link (leads : f.Leads x r) (isRoot : f.IsRoot a) (isRoot' : f.IsRoot b) :
    (f.link a b isRoot').Leads x (if r = a then b else r) := by
  have ground : (f.link a b isRoot').IsRoot b := by
    rw [IsRoot, parent_link]
    split
    · rfl
    · exact isRoot'
  induction leads with
  | @root r top =>
      split
      case isTrue here =>
        refine .step ?_
        rw [parent_link, if_pos here]
        exact .root ground
      case isFalse aside =>
        refine .root ?_
        rw [IsRoot, parent_link, if_neg aside]
        exact top
  | @step x r leads ih =>
      by_cases here : x = a
      · have still : f.parent x = x := here ▸ isRoot
        exact still ▸ ih
      · refine .step ?_
        rwa [parent_link, if_neg here]

/-- The places below the first root get the second one. -/
theorem root_join (f : Forest n) (a b x : Fin n) :
    (f.join a b).root x = if f.root x = f.root a then f.root b else f.root x := by
  have first : (f.find a).place = f.root a := rfl
  have second : ((f.find a).forest.find b).place = f.root b := f.root_forest_find a b
  have kept {y z : Fin n} : ((f.find a).forest.find b).forest.Leads y z ↔ f.Leads y z :=
    leads_forest_find_iff.trans leads_forest_find_iff
  rw [root_eq_iff, join]
  by_cases same : (f.find a).place = ((f.find a).forest.find b).place
  · rw [if_pos same, kept, ite_eq_right_iff.mpr fun here => by rw [here, ← first, same, second]]
    exact f.leads_root x
  · rw [if_neg same]
    have isRoot := (kept.mpr (f.leads_root a)).isRoot
    exact second ▸ (kept.mpr (f.leads_root x)).link isRoot (Search.atRoot_finish _)

/-! ## Trees -/

/-- Places with the same root are in the same tree. -/
def trees (f : Forest n) : Setoid (Fin n) := Setoid.ker f.root

theorem trees_iff : f.trees x y ↔ f.root x = f.root y := Setoid.ker_def

variable {S : Setoid (Fin n)}

theorem trees_discrete_le : (discrete n).trees ≤ S := by
  intro x y same
  rw [trees_iff, root_discrete, root_discrete] at same
  exact same ▸ S.refl x

theorem trees_join_le_iff : (f.join a b).trees ≤ S ↔ f.trees ≤ S ∧ S a b := by
  constructor
  · intro within
    refine ⟨fun x y same => within ?_, within ?_⟩
    · rw [trees_iff] at same ⊢
      rw [root_join, root_join, same]
    · rw [trees_iff, root_join, root_join, if_pos rfl, ite_eq_left_iff.mpr fun _ => rfl]
  · intro ⟨within, joined⟩ x y same
    have toRoot (z : Fin n) : S z (f.root z) := within (trees_iff.mpr (f.root_root z).symm)
    have toNewRoot (z : Fin n) : S z ((f.join a b).root z) := by
      rw [root_join]
      split
      case isTrue below =>
        have toFirst : S z a := S.trans (below ▸ toRoot z) (S.symm (toRoot a))
        exact S.trans (S.trans toFirst joined) (toRoot b)
      case isFalse => exact toRoot z
    exact S.trans (toNewRoot x) (trees_iff.mp same ▸ S.symm (toNewRoot y))

theorem trees_joinAll_le_iff :
    (f.joinAll ws).trees ≤ S ↔ f.trees ≤ S ∧ ∀ a ∈ ws, ∀ b ∈ ws, S a b := by
  induction ws generalizing f with
  | nil => simp [joinAll]
  | cons a ws ih =>
      cases ws with
      | nil => simp [joinAll]
      | cons b ws =>
          rw [joinAll, ih, trees_join_le_iff, and_assoc]
          refine and_congr_right fun _ => ⟨fun ⟨joined, within⟩ => ?_, fun within => ?_⟩
          · -- All places of the list are related to its second one.
            have toSecond : ∀ x ∈ a :: b :: ws, S x b :=
              List.forall_mem_cons.mpr
                ⟨joined, fun x member => within x member b List.mem_cons_self⟩
            exact fun x here y there => S.trans (toSecond x here) (S.symm (toSecond y there))
          · have second : b ∈ a :: b :: ws := List.mem_cons_of_mem a List.mem_cons_self
            exact ⟨within a List.mem_cons_self b second, fun x here y there =>
              within x (List.mem_cons_of_mem a here) y (List.mem_cons_of_mem a there)⟩

theorem trees_foldl_joinAll_le_iff {groups : List (List (Fin n))} :
    (groups.foldl (fun f ws => f.joinAll ws) f).trees ≤ S ↔
      f.trees ≤ S ∧ ∀ ws ∈ groups, ∀ a ∈ ws, ∀ b ∈ ws, S a b := by
  induction groups generalizing f with
  | nil => simp
  | cons ws groups ih =>
      rw [List.foldl_cons, ih, trees_joinAll_le_iff, and_assoc, List.forall_mem_cons]

/-! ## Counts -/

theorem countRootsAmong_eq :
    countRootsAmong ws f = ws.countP fun w => f.root w = w := by
  induction ws generalizing f with
  | nil => rfl
  | cons w ws ih =>
      rw [countRootsAmong, ih, List.countP_cons]
      simp only [root_forest_find, decide_eq_true_eq]
      rfl

/-- There are as many roots as trees. -/
theorem countRoots_eq_card : f.countRoots = Nat.card (Quotient f.trees) := by
  let roots := (List.finRange n).filter fun w => f.root w = w
  have unique : roots.Nodup := (List.nodup_finRange n).filter _
  have reached (r : Fin n) : r ∈ roots.toFinset ↔ r ∈ Set.range f.root := by
    simp only [roots, List.mem_toFinset, List.mem_filter, List.mem_finRange, true_and,
      decide_eq_true_eq, Set.mem_range]
    exact ⟨fun isRoot => ⟨r, isRoot⟩, fun ⟨w, found⟩ => found ▸ f.root_root w⟩
  rw [countRoots, countRootsAmong_eq, List.countP_eq_length_filter, trees,
    Nat.card_congr (Setoid.quotientKerEquivRange f.root), ← List.toFinset_card_of_nodup unique]
  exact (Nat.subtype_card _ reached).symm

end CircuitDag.Forest
