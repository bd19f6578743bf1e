import CircuitDag.Proofs.Param.Substitution
import Mathlib.Logic.Function.Basic

/-!
# Values under an assignment

Numbers for symbols can be put into a parameter, or they can be looked up while it is evaluated.
Both lead to the same value, whatever was folded on the way: a folded expression has the same value
under every assignment.
-/

set_option autoImplicit false

namespace CircuitDag.Param

/-- Numbers for some symbols, or for all of them. -/
abbrev Assignment := String → Option Binary64

/-- The value of a parameter whose symbols have the numbers of an assignment. A quotient by zero has
none, nor has what depends on a symbol without a number. -/
def evalUnder (ρ : Assignment) : Param → Option Binary64
  | value v => some v
  | symbol s => ρ s
  | pi => some Binary64.pi
  | neg p => (p.evalUnder ρ).map (-·)
  | add a b => do return (← a.evalUnder ρ) + (← b.evalUnder ρ)
  | sub a b => do return (← a.evalUnder ρ) - (← b.evalUnder ρ)
  | mul a b => do return (← a.evalUnder ρ) * (← b.evalUnder ρ)
  | div a b => do
      let divisor ← b.evalUnder ρ
      if divisor.isZero then none else return (← a.evalUnder ρ) / divisor

variable {ρ : Assignment} {p : Param} {a b : String} {x y v : Binary64}

/-- Where no symbol has a number, parameters have the values that they have by themselves. -/
theorem evalUnder_none (p : Param) : p.evalUnder (fun _ => none) = p.eval? := by
  induction p with
  | value _ | symbol _ | pi => rfl
  | neg p ih => rw [evalUnder, eval?, ih]
  | add l r ihl ihr | sub l r ihl ihr | mul l r ihl ihr | div l r ihl ihr =>
      rw [evalUnder, eval?, ihl, ihr]

/-- A parameter that has a value by itself has it under every assignment. -/
theorem evalUnder_of_eval? (found : p.eval? = some v) : p.evalUnder ρ = some v := by
  induction p generalizing v with
  | value _ | pi => exact found
  | symbol _ => cases found
  | neg p ih =>
      obtain ⟨w, operand, rfl⟩ := Option.map_eq_some_iff.mp found
      simp [evalUnder, ih operand]
  | add l r ihl ihr | sub l r ihl ihr | mul l r ihl ihr =>
      simp only [eval?, Option.bind_eq_bind, Option.bind_eq_some_iff] at found
      obtain ⟨x, left, y, right, same⟩ := found
      simpa [evalUnder, ihl left, ihr right] using same
  | div l r ihl ihr =>
      obtain ⟨x, y, left, right, nonzero, same⟩ := eval?_div_eq_some_iff.mp found
      simp [evalUnder, ihl left, ihr right, nonzero, same]

@[simp] theorem evalUnder_fold (ρ : Assignment) (p : Param) :
    p.fold.evalUnder ρ = p.evalUnder ρ := by
  cases found : p.eval? with
  | none => rw [fold_eq_self found]
  | some v => rw [fold_eq_value found, evalUnder, evalUnder_of_eval? found]

/-- Putting a number for a symbol is giving it this number in the assignment. -/
theorem evalUnder_bind (ρ : Assignment) (p : Param) (a : String) (x : Binary64) :
    (p.bind a x).evalUnder ρ = p.evalUnder (Function.update ρ a (some x)) := by
  induction p with
  | value _ | pi => rfl
  | symbol s =>
      by_cases same : s = a
      · simp [bind, evalUnder, same]
      · simp [bind, evalUnder, same]
  | neg p ih => simp [bind, evalUnder, ih]
  | add l r ihl ihr | sub l r ihl ihr | mul l r ihl ihr | div l r ihl ihr =>
      simp [bind, evalUnder, ihl, ihr]

/-! ## The set of symbols -/

theorem symbols_bind (p : Param) (a : String) (x : Binary64) :
    (p.bind a x).symbols = p.symbols.filter (· ≠ a) := by
  have irrefl : ∀ s : String, decide (s < s) = false := fun s =>
    decide_eq_false (String.lt_irrefl s)
  have trans : ∀ s t u : String, decide (s < t) = true → decide (t < u) = true →
      decide (s < u) = true := fun s t u before after =>
    decide_eq_true (String.lt_trans (of_decide_eq_true before) (of_decide_eq_true after))
  have total : ∀ s t : String, s ≠ t → decide (s < t) = false → decide (t < s) = true := by
    intro s t different behind
    refine decide_eq_true (Decidable.byContradiction fun ahead => different ?_)
    exact String.le_antisymm (String.not_lt.mp ahead) (String.not_lt.mp (of_decide_eq_false behind))
  refine sortedSet_eq irrefl trans total ?_ fun s => ?_
  · exact (pairwise_sortedSet trans total _).filter _
  · simp [mem_symbols, symbolOccurrences_bind]

/-! ## Replacing twice -/

/-- A symbol that has been replaced is not there any more, and nothing is left to fold. -/
theorem bind_bind_self (p : Param) (a : String) (x y : Binary64) :
    (p.bind a x).bind a y = p.bind a x := by
  induction p with
  | value _ | pi => rfl
  | symbol s => by_cases same : s = a <;> simp [bind, same]
  | neg p ih =>
      simp only [bind]
      rw [bind_fold rfl]
      simp only [bind, ih]
  | add l r ihl ihr | sub l r ihl ihr | mul l r ihl ihr | div l r ihl ihr =>
      simp only [bind]
      rw [bind_fold rfl]
      simp only [bind, ihl, ihr]

/-- Putting a number for a symbol is a substitution: it changes the value as a change of the
assignment does, it takes the symbol and no other one away, numbers for different symbols can be put
in any order, and putting a second number for the same symbol changes nothing. -/
theorem bind_substitutes (p : Param) (a : String) (x : Binary64) :
    (p.evalUnder (fun _ => none) = p.eval? ∧
      ∀ v, p.eval? = some v → ∀ ρ, p.evalUnder ρ = some v) ∧
    (∀ ρ, (p.bind a x).evalUnder ρ = p.evalUnder (Function.update ρ a (some x))) ∧
    (p.bind a x).symbols = p.symbols.filter (· ≠ a) ∧
    (∀ b y, a ≠ b → (p.bind a x).bind b y = (p.bind b y).bind a x) ∧
    ∀ y, (p.bind a x).bind a y = p.bind a x :=
  ⟨⟨evalUnder_none p, fun _ found _ => evalUnder_of_eval? found⟩,
    fun ρ => evalUnder_bind ρ p a x, symbols_bind p a x,
    fun _ y different => bind_comm different p x y, bind_bind_self p a x⟩

/-- A quotient whose divisor becomes zero: in whatever order its symbols are replaced it is not
folded, and it has no value. -/
theorem bind_substitutes_zero_divisor :
    let p : Param := div (add (symbol "a") pi) (mul (symbol "b") (value Binary64.two))
    let q : Param := div (value (Binary64.two + Binary64.pi)) (value Binary64.zero)
    (p.bind "a" Binary64.two).bind "b" Binary64.zero = q ∧
      (p.bind "b" Binary64.zero).bind "a" Binary64.two = q ∧
      (p.bind "b" Binary64.zero).symbols = ["a"] ∧
      ∀ ρ, p.evalUnder (Function.update ρ "b" (some Binary64.zero)) = none := by
  intro p q
  obtain ⟨-, value, symbols, comm, -⟩ := bind_substitutes p "b" Binary64.zero
  have bound : (p.bind "b" Binary64.zero).bind "a" Binary64.two = q := by decide +kernel
  have half : p.bind "b" Binary64.zero = div (add (symbol "a") pi) (Param.value Binary64.zero) := by
    decide +kernel
  refine ⟨(comm "a" Binary64.two (by decide)).symm.trans bound, bound, symbols.trans ?_, ?_⟩
  · decide +kernel
  · intro ρ
    rw [← value ρ, half]
    rfl

end CircuitDag.Param
