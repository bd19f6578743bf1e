import Mathlib.Data.List.Forall2

/-!
# Results that may be errors or missing

When sequences of checks succeed, and when there is a result for each element of a list.
-/

set_option autoImplicit false

namespace CircuitDag

variable {ε α β : Type}

@[simp] theorem pure_eq_ok (a : α) : (pure a : Except ε α) = .ok a := rfl

theorem ok_bind (a : α) (f : α → Except ε β) : .ok a >>= f = f a := rfl

theorem exists_of_isOk {x : Except ε α} (succeeds : x.isOk = true) : ∃ a, x = .ok a := by
  cases x with
  | error e => cases succeeds
  | ok a => exact ⟨a, rfl⟩

theorem bind_eq_ok_iff {x : Except ε α} {f : α → Except ε β} {b : β} :
    x >>= f = .ok b ↔ ∃ a, x = .ok a ∧ f a = .ok b := by
  cases x with
  | error e =>
      constructor
      · intro h
        cases h
      · intro given
        obtain ⟨a, h, -⟩ := given
        cases h
  | ok a =>
      constructor
      · exact fun h => ⟨a, rfl, h⟩
      · intro given
        obtain ⟨a, h, result⟩ := given
        cases h
        exact result

theorem check_seq_iff {x y : Except ε Unit} :
    (do x; y) = .ok () ↔ x = .ok () ∧ y = .ok () := by
  rw [bind_eq_ok_iff]
  constructor
  · intro given
    obtain ⟨⟨⟩, left, right⟩ := given
    exact ⟨left, right⟩
  · intro given
    obtain ⟨left, right⟩ := given
    exact ⟨(), left, right⟩

theorem forM_eq_ok_iff {f : α → Except ε Unit} {l : List α} :
    l.forM f = .ok () ↔ ∀ x ∈ l, f x = .ok () := by
  induction l with
  | nil => simp [List.forM]
  | cons x l ih =>
      rw [List.forall_mem_cons, ← ih]
      exact check_seq_iff

theorem mapM_eq_ok_iff {f : α → Except ε β} {l : List α} {ys : List β} :
    l.mapM f = .ok ys ↔ List.Forall₂ (fun x y => f x = .ok y) l ys := by
  induction l generalizing ys with
  | nil =>
      rw [List.forall₂_nil_left_iff]
      simp [eq_comm]
  | cons x l ih =>
      rw [List.mapM_cons, bind_eq_ok_iff]
      constructor
      · intro given
        obtain ⟨y, first, result⟩ := given
        obtain ⟨zs, rest, last⟩ := bind_eq_ok_iff.mp result
        cases last
        exact .cons first (ih.mp rest)
      · intro all
        cases all with
        | cons first rest => exact ⟨_, first, bind_eq_ok_iff.mpr ⟨_, ih.mpr rest, rfl⟩⟩

theorem exists_mapM_eq_ok {f : α → Except ε β} {l : List α} (each : ∀ x ∈ l, ∃ y, f x = .ok y) :
    ∃ ys, l.mapM f = .ok ys := by
  induction l with
  | nil => exact ⟨[], rfl⟩
  | cons x l ih =>
      rw [List.forall_mem_cons] at each
      obtain ⟨⟨y, first⟩, others⟩ := each
      obtain ⟨ys, rest⟩ := ih others
      exact ⟨y :: ys, mapM_eq_ok_iff.mpr (.cons first (mapM_eq_ok_iff.mp rest))⟩

theorem exists_of_mem_mapM {f : α → Except ε β} {l : List α} {ys : List β} {y : β}
    (results : l.mapM f = .ok ys) (member : y ∈ ys) : ∃ x ∈ l, f x = .ok y := by
  induction mapM_eq_ok_iff.mp results with
  | nil => cases member
  | @cons x z l ys first rest ih =>
      rcases List.mem_cons.mp member with rfl | later
      · exact ⟨x, List.mem_cons_self, first⟩
      · obtain ⟨x', member', result⟩ := ih (mapM_eq_ok_iff.mpr rest) later
        exact ⟨x', List.mem_cons_of_mem x member', result⟩

theorem mapError_eq_ok_iff {δ : Type} {x : Except ε α} {f : ε → δ} {a : α} :
    x.mapError f = .ok a ↔ x = .ok a := by
  cases x <;> simp [Except.mapError]

theorem unless_eq_ok_iff {p : Prop} [Decidable p] {e : ε} {rest : Unit → Except ε β} {b : β} :
    (if p then Except.error e >>= rest else rest ()) = .ok b ↔ ¬ p ∧ rest () = .ok b := by
  by_cases holds : p
  · simp only [holds, ↓reduceIte, not_true_eq_false, false_and, iff_false]
    intro h
    cases h
  · simp [holds]

/-! ## Results that may be missing -/

theorem mapM_eq_some_iff {f? : α → Option β} {l : List α} {ys : List β} :
    l.mapM f? = some ys ↔ List.Forall₂ (fun x y => f? x = some y) l ys := by
  induction l generalizing ys with
  | nil =>
      rw [List.forall₂_nil_left_iff]
      simp [eq_comm]
  | cons x l ih =>
      rw [List.mapM_cons, Option.bind_eq_bind, Option.bind_eq_some_iff]
      constructor
      · intro given
        obtain ⟨y, first, result⟩ := given
        obtain ⟨zs, rest, last⟩ := Option.bind_eq_some_iff.mp result
        cases last
        exact .cons first (ih.mp rest)
      · intro all
        cases all with
        | cons first rest => exact ⟨_, first, Option.bind_eq_some_iff.mpr ⟨_, ih.mpr rest, rfl⟩⟩

theorem isSome_mapM_iff {f? : α → Option β} {l : List α} :
    (l.mapM f?).isSome = true ↔ ∀ x ∈ l, (f? x).isSome = true := by
  induction l with
  | nil => simp
  | cons x l ih =>
      rw [List.forall_mem_cons, ← ih, List.mapM_cons]
      cases f? x with
      | none => simp
      | some y => cases l.mapM f? <;> simp

/-- If every element has a result or is refused, a list has its results if none is refused. -/
theorem mapM_eq_ite {f? : α → Option β} {f : α → β} {ok : α → Prop} [DecidablePred ok] {l : List α}
    (each : ∀ x ∈ l, f? x = if ok x then some (f x) else none) :
    l.mapM f? = if ∀ x ∈ l, ok x then some (l.map f) else none := by
  induction l with
  | nil => rfl
  | cons x l ih =>
      rw [List.forall_mem_cons] at each
      rw [List.mapM_cons, each.1, ih each.2]
      by_cases first : ok x
      · by_cases others : ∀ y ∈ l, ok y
        · rw [if_pos first, if_pos others, if_pos (List.forall_mem_cons.mpr ⟨first, others⟩)]
          rfl
        · rw [if_pos first, if_neg others,
            if_neg fun all => others (List.forall_mem_cons.mp all).2]
          rfl
      · rw [if_neg first, if_neg fun all => first (List.forall_mem_cons.mp all).1]
        rfl

/-! ## Thrown errors -/

theorem run_throw {σ : Type} (e : ε) (s : σ) :
    (throw e : EStateM ε σ α).run s = .error e s := rfl

end CircuitDag
