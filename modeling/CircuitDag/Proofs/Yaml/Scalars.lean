import CircuitDag.Proofs.Number.Numerals
import CircuitDag.Proofs.Yaml.PlainScalars
import CircuitDag.Yaml.DescriptionText

/-!
# The values of scalars that are written

Natural numbers and doubles are written as plain scalars that look like nothing else, and a string
is written plain only where it looks like a string.
-/

set_option autoImplicit false

namespace CircuitDag

namespace DecimalText

variable {t : DecimalText}

/-- A numeral whose digits go on behind a point, or are followed by an exponent. -/
def Fractional (t : DecimalText) : Prop := t.places ≠ [] ∨ t.exponent? ≠ none

/-- The characters of a numeral behind its sign. -/
def unsignedChars (t : DecimalText) : List Char := { t with negative := false }.chars []

theorem chars_eq (t : DecimalText) :
    t.chars [] = (if t.negative then ['-'] else []) ++ t.unsignedChars := by
  rw [unsignedChars, chars, chars]
  simp

theorem Proper.head (proper : t.Proper) :
    ∃ c rest, t.unsignedChars = c :: rest ∧ c.isDigit = true := by
  obtain ⟨whole, digits, -, -⟩ := proper
  rw [unsignedChars, chars]
  cases shape : t.whole with
  | nil => exact absurd shape whole
  | cons c rest => exact ⟨c, _, rfl, digits c (shape ▸ List.mem_cons_self)⟩

/-- What can stand in a numeral. -/
def isNumeralChar (c : Char) : Bool := c.isDigit || c = '-' || c = '.' || c = 'e'

theorem Proper.chars (proper : t.Proper) : ∀ c ∈ t.unsignedChars, isNumeralChar c = true := by
  obtain ⟨-, whole, -, places⟩ := proper
  have digits : ∀ {text : List Char}, (∀ c ∈ text, c.isDigit = true) →
      ∀ c ∈ text, isNumeralChar c = true := by
    intro text all c member
    rw [isNumeralChar, all c member]
    rfl
  have exponent : ∀ e : Int, ∀ c ∈ exponentChars [] e, isNumeralChar c = true := by
    intro e
    rw [exponentChars, List.forall_mem_append, List.forall_mem_cons]
    refine ⟨⟨by decide, ?_⟩, digits fun c => isDigit_of_mem_toDigits⟩
    split
    · exact List.forall_mem_singleton.mpr (by decide)
    · exact List.forall_mem_nil _
  rw [unsignedChars, DecimalText.chars, List.forall_mem_append, List.forall_mem_append,
    List.forall_mem_append]
  refine ⟨⟨⟨List.forall_mem_nil _, digits whole⟩, ?_⟩, ?_⟩
  · split
    · exact List.forall_mem_nil _
    · exact List.forall_mem_cons.mpr ⟨by decide, digits places⟩
  · cases shape : t.exponent? with
    | none => exact List.forall_mem_nil _
    | some e => exact exponent e

theorem Fractional.mark (fractional : t.Fractional) : ∃ c ∈ t.unsignedChars, c.isDigit = false := by
  rw [unsignedChars, chars]
  rcases fractional with places | exponent
  · refine ⟨'.', ?_, by decide⟩
    simp [places]
  · obtain ⟨e, shape⟩ := Option.ne_none_iff_exists'.mp exponent
    refine ⟨'e', ?_, by decide⟩
    simp [shape, exponentChars]

end DecimalText

namespace DecimalFormat

theorem places_layoutPositional {format : DecimalFormat} (pointed : format.pointZero = true)
    (d : Decimal) : (format.layoutPositional d).places ≠ [] := by
  rw [layoutPositional]
  simp only [pointed, ↓reduceIte]
  split
  · exact List.cons_ne_nil _ _
  · next below =>
      split
      · next inside =>
          rw [← List.length_pos_iff, List.length_drop]
          omega
      · exact List.append_ne_nil_of_right_ne_nil _ Nat.toDigits_ne_nil

theorem fractional_layout {format : DecimalFormat} (pointed : format.pointZero = true)
    (x : Binary64) : (format.layout x).Fractional := by
  have decimal : ∀ d, (format.layoutDecimal d).Fractional := by
    intro d
    rw [layoutDecimal]
    split
    · exact .inl (places_layoutPositional pointed d)
    · split
      · exact .inl (places_layoutPositional pointed d)
      · exact .inr (Option.some_ne_none _)
  exact decimal _

end DecimalFormat

namespace Yaml

namespace ScalarValue

variable {text : List Char}

/-! ## Integers -/

theorem digit?_ten {c : Char} (digit : c.isDigit = true) :
    digit? 10 c = some (c.toNat - '0'.toNat) := by
  have below : c.toNat - '0'.toNat < 10 := by
    simp only [Char.isDigit, Bool.and_eq_true, decide_eq_true_eq, UInt32.le_iff_toNat_le] at digit
    change 48 ≤ c.toNat ∧ c.toNat ≤ 57 at digit
    change c.toNat - 48 < 10
    omega
  rw [digit?]
  simp only [digit, ↓reduceIte]
  rw [if_pos below]

theorem digit?_ten_eq_none {c : Char} (other : c.isDigit = false) : digit? 10 c = none := by
  rw [digit?]
  simp only [other, Bool.false_eq_true, ↓reduceIte]
  rw [if_neg]
  split
  · omega
  · split <;> omega

theorem digits?_ten (nonempty : text ≠ []) (digits : ∀ c ∈ text, c.isDigit = true) :
    digits? 10 text = some (Decimal.digitsValue text) := by
  have fold : ∀ n : Nat, text.foldlM (fun n c => (digit? 10 c).map (10 * n + ·)) n =
      some (text.foldl (fun n c => 10 * n + (c.toNat - '0'.toNat)) n) := by
    clear nonempty
    induction text with
    | nil => exact fun _ => rfl
    | cons c text ih =>
        intro n
        rw [List.forall_mem_cons] at digits
        rw [List.foldlM_cons, digit?_ten digits.1]
        exact ih digits.2 _
  rw [digits?, if_neg (by simpa using nonempty), fold, Decimal.digitsValue]

theorem digits?_ten_eq_none (other : ∃ c ∈ text, c.isDigit = false) : digits? 10 text = none := by
  have fold : ∀ n : Nat, text.foldlM (fun n c => (digit? 10 c).map (10 * n + ·)) n = none := by
    induction text with
    | nil =>
        obtain ⟨c, member, -⟩ := other
        cases member
    | cons c text ih =>
        intro n
        rw [List.foldlM_cons]
        cases digit : c.isDigit with
        | false => rw [digit?_ten_eq_none digit]; rfl
        | true =>
            obtain ⟨d, member, notDigit⟩ := other
            rcases List.mem_cons.mp member with rfl | later
            · cases digit.symm.trans notDigit
            · rw [digit?_ten digit]
              exact ih ⟨d, later, notDigit⟩ _
  rw [digits?, fold]
  split <;> rfl

/-- Without a mark for a radix, digits are decimal. -/
theorem magnitude?_decimal (unmarked : ∀ c ∈ text, c ≠ 'x' ∧ c ≠ 'o' ∧ c ≠ 'b') :
    magnitude? text = if hasLeadingZero text then none else digits? 10 text := by
  rw [magnitude?]
  · rintro rest rfl
    exact absurd rfl (unmarked 'x' (by simp)).1
  · rintro rest rfl
    exact absurd rfl (unmarked 'o' (by simp)).2.1
  · rintro rest rfl
    exact absurd rfl (unmarked 'b' (by simp)).2.2

theorem dropSign_digit {c : Char} {rest : List Char} (digit : c.isDigit = true) :
    dropSign (c :: rest) = c :: rest := by
  rw [dropSign]
  · rintro others same
    cases same
    cases digit
  · rintro others same
    cases same
    cases digit

theorem hasLeadingZero_eq_false (nonempty : text ≠ []) (digits : ∀ c ∈ text, c.isDigit = true)
    (zero : text.head? = some '0' → text = ['0']) : hasLeadingZero text = false := by
  obtain ⟨c, rest, rfl⟩ := List.exists_cons_of_ne_nil nonempty
  rw [hasLeadingZero, dropSign_digit (digits c List.mem_cons_self)]
  split
  · next d others same =>
      cases same
      cases zero rfl
  · rfl

theorem unmarked_of_digits (digits : ∀ c ∈ text, c.isDigit = true) :
    ∀ c ∈ text, c ≠ 'x' ∧ c ≠ 'o' ∧ c ≠ 'b' := by
  intro c member
  have apart : ∀ d : Char, d.isDigit = false → c ≠ d := by
    rintro d other rfl
    cases (digits c member).symm.trans other
  exact ⟨apart _ (by decide), apart _ (by decide), apart _ (by decide)⟩

theorem nat?_toDigits (n : Nat) : nat? (Nat.toDigits 10 n) = some n := by
  have digits : ∀ c ∈ Nat.toDigits 10 n, c.isDigit = true := fun c => isDigit_of_mem_toDigits
  obtain ⟨nonempty, -, zero, -⟩ := DecimalText.proper_ofNat n
  have magnitude : magnitude? (Nat.toDigits 10 n) = some n := by
    rw [magnitude?_decimal (unmarked_of_digits digits),
      hasLeadingZero_eq_false nonempty digits zero, digits?_ten nonempty digits,
      digitsValue_toDigits]
    rfl
  rw [nat?, magnitude]
  intro rest same
  have plus := digits '+' (by rw [same]; exact List.mem_cons_self)
  cases plus

/-! ## Doubles -/

/-- A numeral with a point or an exponent is no integer. -/
theorem magnitude?_fractional {t : DecimalText} (proper : t.Proper) (fractional : t.Fractional) :
    magnitude? t.unsignedChars = none := by
  have unmarked : ∀ c ∈ t.unsignedChars, c ≠ 'x' ∧ c ≠ 'o' ∧ c ≠ 'b' := by
    intro c member
    have apart : ∀ d, DecimalText.isNumeralChar d = false → c ≠ d := by
      rintro d other rfl
      cases (proper.chars c member).symm.trans other
    exact ⟨apart _ (by decide), apart _ (by decide), apart _ (by decide)⟩
  rw [magnitude?_decimal unmarked, digits?_ten_eq_none fractional.mark]
  split <;> rfl

theorem integer?_fractional {t : DecimalText} (proper : t.Proper) (fractional : t.Fractional) :
    integer? (t.chars []) = none := by
  have none := magnitude?_fractional proper fractional
  obtain ⟨c, rest, shape, digit⟩ := proper.head
  rw [DecimalText.chars_eq]
  rw [shape] at none ⊢
  split
  · change (magnitude? (c :: rest)).bind _ = _
    rw [none]
    rfl
  · have unsigned : ∀ d : Char, d.isDigit = false → c ≠ d := by
      rintro d other rfl
      cases digit.symm.trans other
    have nat : nat? (c :: rest) = Option.none := by
      rw [nat?]
      · exact none
      · intro others same
        cases same
        cases digit
    rw [List.nil_append, integer?]
    · rw [nat]
      rfl
    · intro others same
      cases same
      cases digit

theorem hasLeadingZero_fractional {t : DecimalText} (proper : t.Proper)
    (fractional : t.Fractional) : hasLeadingZero (t.chars []) = false := by
  obtain ⟨c, rest, shape, digit⟩ := proper.head
  obtain ⟨mark, member, other⟩ := fractional.mark
  have drop : dropSign (t.chars []) = t.unsignedChars := by
    rw [DecimalText.chars_eq]
    split
    · rfl
    · rw [shape]
      exact dropSign_digit digit
  rw [hasLeadingZero, drop]
  split
  · next d others zero =>
      rw [zero] at member
      rcases List.mem_cons.mp member with rfl | behind
      · cases other
      · rw [List.all_eq_false]
        exact ⟨mark, behind, by simp [other]⟩
  · rfl

/-- Text that may be a number and nothing else. -/
structure LooksFractional (text : String) : Prop where
  nonempty : text.isEmpty = false
  notNull : isNull text = false
  notBool : bool? text = none
  notInteger : integer? text.toList = none
  leading : hasLeadingZero text.toList = false

instance (text : String) : Decidable (LooksFractional text) :=
  decidable_of_iff (text.isEmpty = false ∧ isNull text = false ∧ bool? text = none ∧
    integer? text.toList = none ∧ hasLeadingZero text.toList = false)
    ⟨fun h => ⟨h.1, h.2.1, h.2.2.1, h.2.2.2.1, h.2.2.2.2⟩, fun h => ⟨h.1, h.2, h.3, h.4, h.5⟩⟩

theorem LooksFractional.ofPlain {text : String} (looks : LooksFractional text) {x : Binary64}
    (read : float? text = some x) : ofPlain text = float x := by
  rw [ScalarValue.ofPlain, looks.nonempty, looks.notNull, looks.notBool]
  simp [looks.notInteger, looks.leading, read]

theorem looksFractional_of_digit {text : String}
    (digit : (text.toList.take 3).any Char.isDigit = true)
    (integer : integer? text.toList = none) (leading : hasLeadingZero text.toList = false) :
    LooksFractional text := by
  have other : ∀ words : List String,
      (∀ word ∈ words, (word.toList.take 3).any Char.isDigit = false) →
      words.contains text = false := by
    intro words all
    by_contra member
    have member := List.contains_iff_mem.mp (Bool.of_not_eq_false member)
    cases digit.symm.trans (all text member)
  refine ⟨?_, other _ (by decide), ?_, integer, leading⟩
  · by_contra empty
    rw [Bool.not_eq_false, String.isEmpty_iff] at empty
    rw [empty] at digit
    cases digit
  · rw [bool?, other _ (by decide), other _ (by decide)]
    rfl

end ScalarValue

/-! ## Numbers as they are written -/

/-- The first characters of a numeral hold a digit. -/
theorem any_isDigit_chars {t : DecimalText} (proper : t.Proper) :
    ((t.chars []).take 3).any Char.isDigit = true := by
  obtain ⟨c, rest, shape, digit⟩ := proper.head
  rw [DecimalText.chars_eq, shape]
  cases t.negative <;> simp [digit]

theorem isWordChar_of_isNumeralChar {c : Char} (numeral : DecimalText.isNumeralChar c = true) :
    ScalarText.isWordChar c = true := by
  simp only [DecimalText.isNumeralChar, Bool.or_eq_true, decide_eq_true_eq] at numeral
  rcases numeral with ((digit | rfl) | rfl) | rfl
  · simp [ScalarText.isWordChar, isNameChar, Char.isAlphanum, digit]
  · decide
  · decide
  · decide

theorem plainAllowed_chars {t : DecimalText} (proper : t.Proper) :
    ScalarText.plainAllowed (t.chars []) = true := by
  refine ScalarText.plainAllowed_of_word ?_ ?_
  · have unsigned : ∀ c ∈ t.unsignedChars, ScalarText.isWordChar c = true :=
      fun c member => isWordChar_of_isNumeralChar (proper.chars c member)
    rw [DecimalText.chars_eq, List.forall_mem_append]
    refine ⟨?_, unsigned⟩
    split
    · exact List.forall_mem_singleton.mpr (by decide)
    · exact List.forall_mem_nil _
  · obtain ⟨c, member, digit⟩ := List.any_eq_true.mp (any_isDigit_chars proper)
    exact List.any_eq_true.mpr ⟨c, member, by rw [Char.isAlphanum, digit, Bool.or_true]⟩

theorem write_cases (x : Binary64) : decimalFormat.write x ∈ [".nan", ".inf", "-.inf"] ∨
    decimalFormat.write x = String.ofList ((decimalFormat.layout x).chars []) := by
  rw [DecimalFormat.write]
  split
  · exact .inl (by decide)
  · split
    · split
      · exact .inl (by decide)
      · exact .inl (by decide)
    · exact .inr rfl

theorem looksFractional_write (x : Binary64) :
    ScalarValue.LooksFractional (decimalFormat.write x) := by
  rcases write_cases x with fixed | numeral
  · have all : ∀ text ∈ [".nan", ".inf", "-.inf"], ScalarValue.LooksFractional text := by decide
    exact all _ fixed
  · have proper := decimalFormat.proper_layout x
    have fractional := DecimalFormat.fractional_layout
      (show decimalFormat.pointZero = true from rfl) x
    rw [numeral]
    refine ScalarValue.looksFractional_of_digit ?_ ?_ ?_ <;> rw [String.toList_ofList]
    · exact any_isDigit_chars proper
    · exact ScalarValue.integer?_fractional proper fractional
    · exact ScalarValue.hasLeadingZero_fractional proper fractional

theorem plainAllowed_write (x : Binary64) :
    ScalarText.plainAllowed (decimalFormat.write x).toList = true := by
  rcases write_cases x with fixed | numeral
  · have all : ∀ text ∈ [".nan", ".inf", "-.inf"],
        ScalarText.plainAllowed (String.toList text) = true := by decide
    exact all _ fixed
  · rw [numeral, String.toList_ofList]
    exact plainAllowed_chars (decimalFormat.proper_layout x)

theorem plainAllowed_toString_nat (n : Nat) :
    ScalarText.plainAllowed (toString n).toList = true := by
  rw [Nat.toString_eq_repr, Nat.toList_repr]
  have shape : Nat.toDigits 10 n = DecimalText.chars [] { whole := Nat.toDigits 10 n } := by
    simp [DecimalText.chars]
  rw [shape]
  exact plainAllowed_chars (DecimalText.proper_ofNat n)

/-! ## Strings -/

/-- A string is written plain only where it is read as a string. -/
theorem ofPlain_of_style {text : String} (plain : ScalarText.style text = .plain) :
    ScalarValue.ofPlain text = .string text := by
  rw [ScalarText.style] at plain
  split at plain
  · split at plain <;> cases plain
  · split at plain
    · next allowed =>
        simp only [Bool.and_eq_true, Bool.not_eq_true', ScalarText.needsQuotes,
          Bool.or_eq_false_iff, decide_eq_false_iff_not, not_not] at allowed
        exact allowed.1.1
    · split at plain <;> cases plain

end Yaml

/-- A number that is read as it was written. -/
def Binary64.SurvivesYaml (x : Binary64) : Prop :=
  Yaml.ScalarValue.float? (Yaml.decimalFormat.write x) = some x

end CircuitDag
