import CircuitDag.Param.Basic

/-!
# Putting numbers for symbols

Putting a number for a symbol folds every composite expression that has become numeric, whether the
symbol occurs in it or not. A folded expression has no symbols, so folding early loses no later
replacement, and numbers for different symbols can be put in any order.
-/

set_option autoImplicit false

namespace CircuitDag.Param

variable {p q : Param} {a b s : String} {x y v : Binary64}

theorem mem_symbols : s ∈ p.symbols ↔ s ∈ p.symbolOccurrences := mem_sortedSet ..

theorem isSymbolic_of_mem_symbols (mentioned : s ∈ p.symbols) : p.isSymbolic = true := by
  rw [mem_symbols] at mentioned
  induction p with
  | value _ | pi => cases mentioned
  | symbol _ => rfl
  | neg p ih => exact ih mentioned
  | add l r ihl ihr | sub l r ihl ihr | mul l r ihl ihr | div l r ihl ihr =>
      rw [isSymbolic, Bool.or_eq_true]
      exact (List.mem_append.mp mentioned).imp ihl ihr

theorem eval?_div_eq_some_iff : (div p q).eval? = some v ↔
    ∃ x y, p.eval? = some x ∧ q.eval? = some y ∧ y.isZero = false ∧ x / y = v := by
  simp only [eval?, Option.bind_eq_bind, Option.bind_eq_some_iff]
  constructor
  · intro given
    obtain ⟨y, right, found⟩ := given
    split at found
    · cases found
    · next nonzero =>
        obtain ⟨x, left, same⟩ := Option.bind_eq_some_iff.mp found
        exact ⟨x, y, left, right, by simpa using nonzero, Option.some.inj same⟩
  · intro given
    obtain ⟨x, y, left, right, nonzero, same⟩ := given
    exact ⟨y, right, by simp [nonzero, left, same]⟩

theorem symbolOccurrences_of_eval? (value : p.eval? = some v) : p.symbolOccurrences = [] := by
  induction p generalizing v with
  | value _ | pi => rfl
  | symbol _ => cases value
  | neg p ih =>
      obtain ⟨w, found, -⟩ := Option.map_eq_some_iff.mp value
      exact ih found
  | add a b iha ihb | sub a b iha ihb | mul a b iha ihb =>
      simp only [eval?, Option.bind_eq_bind, Option.bind_eq_some_iff] at value
      obtain ⟨x, left, y, right, -⟩ := value
      rw [symbolOccurrences, iha left, ihb right, List.append_nil]
  | div a b iha ihb =>
      obtain ⟨x, y, left, right, -⟩ := eval?_div_eq_some_iff.mp value
      rw [symbolOccurrences, iha left, ihb right, List.append_nil]

/-! ## Folding -/

theorem fold_eq_value (found : p.eval? = some v) : p.fold = value v := by
  rw [fold, found]

theorem fold_eq_self (none : p.eval? = none) : p.fold = p := by
  rw [fold, none]

@[simp] theorem eval?_fold (p : Param) : p.fold.eval? = p.eval? := by
  cases found : p.eval? with
  | none => rw [fold_eq_self found, found]
  | some v => rw [fold_eq_value found, eval?]

@[simp] theorem symbolOccurrences_fold (p : Param) :
    p.fold.symbolOccurrences = p.symbolOccurrences := by
  cases found : p.eval? with
  | none => rw [fold_eq_self found]
  | some v => rw [fold_eq_value found, symbolOccurrences_of_eval? found, symbolOccurrences]

/-! ## Symbols after a replacement -/

theorem symbolOccurrences_bind (p : Param) (a : String) (x : Binary64) :
    (p.bind a x).symbolOccurrences = p.symbolOccurrences.filter (· ≠ a) := by
  induction p with
  | value _ | pi => rfl
  | symbol s => by_cases same : s = a <;> simp [bind, symbolOccurrences, same]
  | neg p ih => simpa [bind, symbolOccurrences] using ih
  | add l r ihl ihr | sub l r ihl ihr | mul l r ihl ihr | div l r ihl ihr =>
      simp [bind, symbolOccurrences, ihl, ihr]

theorem mem_symbols_bind : s ∈ (p.bind a x).symbols ↔ s ∈ p.symbols ∧ s ≠ a := by
  simp [mem_symbols, symbolOccurrences_bind]

/-! ## The order of replacements -/

theorem eval?_bind (found : p.eval? = some v) : (p.bind a x).eval? = some v := by
  induction p generalizing v with
  | value _ | pi => exact found
  | symbol _ => cases found
  | neg p ih =>
      obtain ⟨w, operand, rfl⟩ := Option.map_eq_some_iff.mp found
      simp [bind, eval?, ih operand]
  | add l r ihl ihr | sub l r ihl ihr | mul l r ihl ihr =>
      simp only [eval?, Option.bind_eq_bind, Option.bind_eq_some_iff] at found
      obtain ⟨x, left, y, right, same⟩ := found
      simpa [bind, eval?, ihl left, ihr right] using same
  | div l r ihl ihr =>
      obtain ⟨x, y, left, right, nonzero, same⟩ := eval?_div_eq_some_iff.mp found
      rw [bind, eval?_fold]
      exact eval?_div_eq_some_iff.mpr ⟨x, y, ihl left, ihr right, nonzero, same⟩

/-- An expression that has operands. -/
def isComposite : Param → Bool
  | value _ | symbol _ | pi => false
  | neg _ | add _ _ | sub _ _ | mul _ _ | div _ _ => true

/-- Folding a composite expression first makes no difference to a replacement. -/
theorem bind_fold (composite : p.isComposite = true) (a : String) (x : Binary64) :
    p.fold.bind a x = p.bind a x := by
  cases found : p.eval? with
  | none => rw [fold_eq_self found]
  | some v =>
      have after : (p.bind a x).eval? = some v := eval?_bind found
      rw [fold_eq_value found]
      cases p with
      | value _ | symbol _ | pi => cases composite
      | neg _ | add _ _ | sub _ _ | mul _ _ | div _ _ =>
          simp only [bind, eval?_fold] at after
          simp only [bind, fold_eq_value after]

/-- Numbers for different symbols can be put in any order. -/
theorem bind_comm (different : a ≠ b) (p : Param) (x y : Binary64) :
    (p.bind a x).bind b y = (p.bind b y).bind a x := by
  induction p with
  | value _ | pi => rfl
  | symbol s =>
      by_cases first : s = a
      · have second : s ≠ b := fun same => different (first.symm.trans same)
        simp [bind, first, different]
      · by_cases second : s = b
        · simp [bind, second, Ne.symm different]
        · simp [bind, first, second]
  | neg p ih =>
      simp only [bind]
      rw [bind_fold rfl, bind_fold rfl]
      simp only [bind, ih]
  | add l r ihl ihr | sub l r ihl ihr | mul l r ihl ihr | div l r ihl ihr =>
      simp only [bind]
      rw [bind_fold rfl, bind_fold rfl]
      simp only [bind, ihl, ihr]

end CircuitDag.Param
