import CircuitDag.Number.DecimalText
import Mathlib.Data.List.Basic

/-!
# Numerals

The numerals that doubles and natural numbers are written as have digits before the point, no zero
in front of other digits there, and nothing but digits behind it.
-/

set_option autoImplicit false

namespace CircuitDag

/-! ## Digits -/

theorem digitsValue_toDigits (n : Nat) : Decimal.digitsValue (Nat.toDigits 10 n) = n := by
  rw [Decimal.digitsValue, ← Nat.ofDigitChars_eq_foldl]
  exact Nat.ofDigitChars_toDigits (by decide) (by decide)

theorem isDigit_of_mem_toDigits {n : Nat} {c : Char} (member : c ∈ Nat.toDigits 10 n) :
    c.isDigit = true := Nat.isDigit_of_mem_toDigits (by decide) (by decide) member

theorem digitChar_ne_zero {n : Nat} (positive : n ≠ 0) (below : n < 10) : n.digitChar ≠ '0' := by
  have all : ∀ n < 10, n ≠ 0 → n.digitChar ≠ '0' := by decide
  exact all n below positive

/-- Only the digits of zero begin with a zero. -/
theorem head?_toDigits_ne_zero {n : Nat} (positive : n ≠ 0) :
    (Nat.toDigits 10 n).head? ≠ some '0' := by
  induction n using Nat.strongRecOn with
  | ind n ih =>
      rw [Nat.toDigits_eq_if (by decide)]
      split
      · next below => exact fun same => digitChar_ne_zero positive below (Option.some.inj same)
      · next above =>
          have shorter := ih (n / 10) (Nat.div_lt_self (Nat.pos_of_ne_zero positive) (by decide))
            (Nat.div_ne_zero_iff.mpr ⟨by decide, Nat.le_of_not_lt above⟩)
          rwa [List.head?_append_of_ne_nil _ Nat.toDigits_ne_nil]

/-! ## Proper numerals -/

namespace DecimalText

/-- The digits of a numeral are as they should be: there are some before the point, the first of
them is no zero unless it stands alone, and only digits stand behind the point. -/
structure Proper (t : DecimalText) : Prop where
  nonempty : t.whole ≠ []
  whole : ∀ c ∈ t.whole, c.isDigit = true
  leading : t.whole.head? = some '0' → t.whole = ['0']
  places : ∀ c ∈ t.places, c.isDigit = true

theorem proper_ofNat (n : Nat) : Proper { whole := Nat.toDigits 10 n } where
  nonempty := Nat.toDigits_ne_nil
  whole _ := isDigit_of_mem_toDigits
  leading zero := by
    by_cases positive : n = 0
    · subst positive
      rfl
    · exact absurd zero (head?_toDigits_ne_zero positive)
  places := nofun

end DecimalText

/-! ## Shortest decimals -/

/-- Zero is not scaled. -/
def Decimal.Reduced (d : Decimal) : Prop := d.coefficient = 0 → d.exponent = 0

theorem Decimal.reduced_of_ne_zero {d : Decimal} (positive : d.coefficient ≠ 0) : d.Reduced :=
  fun zero => absurd zero positive

theorem Decimal.coefficient_strip_ne_zero (fuel : Nat) {d : Decimal}
    (positive : d.coefficient ≠ 0) :
    (strip fuel d).coefficient ≠ 0 := by
  induction fuel generalizing d with
  | zero => exact positive
  | succ fuel ih =>
      rw [strip]
      split
      · next trailing =>
          have above : 10 ≤ d.coefficient := by omega
          exact ih (Nat.div_ne_zero_iff.mpr ⟨by decide, above⟩)
      · exact positive

namespace RoundingInterval

/-- The interval around a number other than zero is positive. -/
theorem low_ofBinary64_pos {x : Binary64} (nonzero : x.significand ≠ 0) :
    0 < (ofBinary64 x).low := by
  have quarters : 0 < 4 * x.significand - if x.isPowerBoundary then 1 else 2 := by
    split <;> omega
  exact Nat.mul_pos quarters (Nat.pow_pos (by decide))

theorem low_inUnitsOf_pos {i : RoundingInterval} (positive : 0 < i.low) (exponent : Int) :
    0 < (i.inUnitsOf exponent).low := Nat.mul_pos positive (Nat.pow_pos (by decide))

theorem ne_zero_of_contains {i : RoundingInterval} {n : Nat} (positive : 0 < i.low)
    (inside : i.contains n = true) : n ≠ 0 := by
  rintro rfl
  rw [contains] at inside
  simp only [Nat.zero_mul] at inside
  split at inside
  · simp only [Bool.and_eq_true, decide_eq_true_eq] at inside
    exact Nat.not_lt_of_le inside.1 positive
  · simp at inside

theorem contains_of_nearest? {i : RoundingInterval} {tie : Decimal.Tie} {n : Nat}
    (nearest : i.nearest? tie = some n) : i.contains n = true := by
  unfold nearest? at nearest
  simp only at nearest
  split at nearest
  · cases nearest
  · next lower _ =>
      cases nearest
      exact lower
  · next upper =>
      cases nearest
      exact upper
  · next lower upper =>
      split at nearest
      · cases nearest
        exact lower
      · split at nearest
        · cases nearest
          exact upper
        · cases tie with
          | up =>
              cases nearest
              exact upper
          | even =>
              cases nearest
              split
              · exact lower
              · exact upper

end RoundingInterval

theorem Decimal.reduced_shortest (tie : Tie) (x : Binary64) : (shortest tie x).Reduced := by
  rw [shortest]
  split
  · exact fun _ => rfl
  · next nonzero =>
      simp only
      split
      · next decimal found =>
          obtain ⟨digits, -, candidate⟩ := List.exists_of_findSome?_eq_some found
          obtain ⟨n, nearest, rfl⟩ := Option.map_eq_some_iff.mp candidate
          have positive : n ≠ 0 := RoundingInterval.ne_zero_of_contains
            (RoundingInterval.low_inUnitsOf_pos
              (RoundingInterval.low_ofBinary64_pos nonzero) _)
            (RoundingInterval.contains_of_nearest? nearest)
          exact reduced_of_ne_zero (coefficient_strip_ne_zero _ positive)
      · exact fun _ => rfl

/-! ## Layouts -/

namespace DecimalFormat

theorem proper_layoutPositional (format : DecimalFormat) {d : Decimal} (reduced : d.Reduced) :
    (format.layoutPositional d).Proper := by
  have digits : ∀ c ∈ Nat.toDigits 10 d.coefficient, c.isDigit = true := fun _ =>
    isDigit_of_mem_toDigits
  have zeros : ∀ (n : Nat), ∀ c ∈ List.replicate n '0', c.isDigit = true := by
    intro n c member
    rw [List.eq_of_mem_replicate member]
    rfl
  rw [layoutPositional]
  simp only
  split
  · refine ⟨by simp [Nat.toDigits_ne_nil], List.forall_mem_append.mpr ⟨digits, zeros _⟩, ?_, ?_⟩
    · by_cases zero : d.coefficient = 0
      · intro _
        rw [zero, reduced zero]
        rfl
      · intro leading
        rw [List.head?_append_of_ne_nil _ Nat.toDigits_ne_nil] at leading
        exact absurd leading (head?_toDigits_ne_zero zero)
    · intro c member
      split at member
      · rw [List.mem_singleton.mp member]
        rfl
      · cases member
  · next below =>
      have positive : d.coefficient ≠ 0 := fun zero => below (Int.le_of_eq (reduced zero).symm)
      split
      · next inside =>
          have some : 0 < (Nat.toDigits 10 d.coefficient).length - (-d.exponent).toNat :=
            Nat.sub_pos_of_lt inside
          refine ⟨?_, fun c member => digits c (List.mem_of_mem_take member), ?_,
            fun c member => digits c (List.mem_of_mem_drop member)⟩
          · rw [← List.length_pos_iff, List.length_take]
            omega
          · intro leading
            rw [List.head?_take, if_neg (Nat.ne_of_gt some)] at leading
            exact absurd leading (head?_toDigits_ne_zero positive)
      · refine ⟨by simp, by simp, fun _ => rfl, ?_⟩
        exact List.forall_mem_append.mpr ⟨zeros _, digits⟩

theorem proper_layoutScientific (d : Decimal) : (layoutScientific d).Proper := by
  have digits : ∀ c ∈ Nat.toDigits 10 d.coefficient, c.isDigit = true := fun _ =>
    isDigit_of_mem_toDigits
  rw [layoutScientific]
  refine ⟨?_, fun c member => digits c (List.mem_of_mem_take member), ?_,
    fun c member => digits c (List.mem_of_mem_drop member)⟩
  · exact fun none => Nat.toDigits_ne_nil ((List.take_eq_nil_iff.mp none).resolve_left (by decide))
  · intro leading
    rw [List.head?_take] at leading
    simp only [Nat.one_ne_zero, ↓reduceIte] at leading
    obtain ⟨rest, shape⟩ := List.head?_eq_some_iff.mp leading
    rw [shape]
    rfl

/-- Every double is written as a proper numeral. -/
theorem proper_layout (format : DecimalFormat) (x : Binary64) : (format.layout x).Proper := by
  have reduced := Decimal.reduced_shortest format.tie x
  have decimal : (format.layoutDecimal (Decimal.shortest format.tie x)).Proper := by
    rw [layoutDecimal]
    split
    · exact proper_layoutPositional format reduced
    · split
      · exact proper_layoutPositional format reduced
      · exact proper_layoutScientific _
  exact ⟨decimal.nonempty, decimal.whole, decimal.leading, decimal.places⟩

end DecimalFormat

end CircuitDag
