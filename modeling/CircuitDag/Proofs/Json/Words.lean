import CircuitDag.Json.Token
import CircuitDag.Proofs.Number.Numerals

/-!
# Reading JSON tokens

Tokens are read back from their spelling. A numeral is told from what follows because no text goes
on with a digit, a point or an exponent behind it.
-/

set_option autoImplicit false

namespace CircuitDag

variable {digits rest text : List Char} {t : DecimalText}

/-- A text that begins with no digit. -/
def StopsDigits (text : List Char) : Prop := ∀ c, text.head? = some c → c.isDigit = false

theorem takeWhile_digits (all : ∀ c ∈ digits, c.isDigit = true) (stops : StopsDigits rest) :
    (digits ++ rest).takeWhile Char.isDigit = digits := by
  rw [List.takeWhile_append_of_pos all]
  cases rest with
  | nil => simp
  | cons c rest => simp [stops c rfl]

theorem dropWhile_digits (all : ∀ c ∈ digits, c.isDigit = true) (stops : StopsDigits rest) :
    (digits ++ rest).dropWhile Char.isDigit = rest := by
  rw [List.dropWhile_append_of_pos all]
  cases rest with
  | nil => rfl
  | cons c rest => simp [stops c rfl]

namespace JsonToken

/-- A text that does not go on with a numeral. -/
def EndsNumeral (text : List Char) : Prop :=
  ∀ c, text.head? = some c → c.isDigit = false ∧ c ≠ '.' ∧ c ≠ 'e' ∧ c ≠ 'E'

theorem EndsNumeral.stopsDigits (ends : EndsNumeral text) : StopsDigits text :=
  fun c first => (ends c first).1

theorem endsNumeral_nil : EndsNumeral [] := nofun

theorem endsNumeral_cons {c : Char}
    (other : c.isDigit = false ∧ c ≠ '.' ∧ c ≠ 'e' ∧ c ≠ 'E') : EndsNumeral (c :: rest) := by
  intro d first
  cases first
  exact other

/-! ## Numbers -/

theorem whole?_append (proper : t.Proper) (stops : StopsDigits rest) :
    whole? (t.whole ++ rest) = some (t.whole, rest) := by
  cases shape : t.whole with
  | nil => exact absurd shape proper.nonempty
  | cons c whole =>
      by_cases zero : c = '0'
      · subst zero
        have alone := proper.leading (by rw [shape]; rfl)
        rw [← shape, alone]
        rfl
      · have all := proper.whole
        rw [shape] at all
        rw [List.cons_append, whole?.eq_2 _ (fun _ same => zero (List.cons.inj same).1),
          ← List.cons_append, takeWhile_digits all stops, dropWhile_digits all stops]
        rfl

def placesChars (places : List Char) : List Char := if places.isEmpty then [] else '.' :: places

theorem places?_append (proper : t.Proper) (stops : StopsDigits rest)
    (noPoint : rest.head? ≠ some '.') :
    places? (placesChars t.places ++ rest) = some (t.places, rest) := by
  cases shape : t.places with
  | nil =>
      cases rest with
      | nil => rfl
      | cons c rest =>
          exact places?.eq_2 _ fun _ same => noPoint (congrArg List.head? same)
  | cons c places =>
      have all := proper.places
      rw [shape] at all
      change places? ('.' :: ((c :: places) ++ rest)) = _
      rw [places?, takeWhile_digits all stops, dropWhile_digits all stops]
      rfl

def exponentChars? : Option Int → List Char
  | none => []
  | some exponent => DecimalText.exponentChars ['+'] exponent

theorem exponent?_append (exponent? : Option Int) (ends : EndsNumeral rest) :
    JsonToken.exponent? (exponentChars? exponent? ++ rest) = some (exponent?, rest) := by
  cases exponent? with
  | none =>
      cases rest with
      | nil => rfl
      | cons c rest =>
          obtain ⟨-, -, lower, upper⟩ := ends c rfl
          change JsonToken.exponent? (c :: rest) = _
          simp [JsonToken.exponent?, lower, upper]
  | some exponent =>
      have all : ∀ c ∈ Nat.toDigits 10 exponent.natAbs, c.isDigit = true := fun _ =>
        isDigit_of_mem_toDigits
      have some : (Nat.toDigits 10 exponent.natAbs).isEmpty = false := by
        simp [Nat.toDigits_ne_nil]
      have value := digitsValue_toDigits exponent.natAbs
      rw [exponentChars?, DecimalText.exponentChars]
      by_cases negative : exponent < 0
      · have sign : -(exponent.natAbs : Int) = exponent := by omega
        rw [if_pos negative]
        change JsonToken.exponent? ('e' :: '-' :: (Nat.toDigits 10 exponent.natAbs ++ rest)) = _
        simp only [JsonToken.exponent?, true_or, ↓reduceIte,
          takeWhile_digits all ends.stopsDigits, dropWhile_digits all ends.stopsDigits, some,
          Bool.false_eq_true, value, sign]
      · have sign : (exponent.natAbs : Int) = exponent := by omega
        rw [if_neg negative]
        change JsonToken.exponent? ('e' :: '+' :: (Nat.toDigits 10 exponent.natAbs ++ rest)) = _
        simp only [JsonToken.exponent?, true_or, ↓reduceIte,
          takeWhile_digits all ends.stopsDigits, dropWhile_digits all ends.stopsDigits, some,
          Bool.false_eq_true, value, sign]

theorem chars_number (t : DecimalText) : (number t).chars =
    (if t.negative then ['-'] else []) ++
      (t.whole ++ (placesChars t.places ++ exponentChars? t.exponent?)) := by
  rw [chars, DecimalText.chars, placesChars]
  cases t.exponent? <;> simp [exponentChars?]

/-- A proper numeral is read back. -/
theorem number?_append (proper : t.Proper) (ends : EndsNumeral rest) :
    number? ((number t).chars ++ rest) = some (number t, rest) := by
  have behindPlaces : StopsDigits (exponentChars? t.exponent? ++ rest) ∧
      (exponentChars? t.exponent? ++ rest).head? ≠ some '.' := by
    cases t.exponent? with
    | none => exact ⟨ends.stopsDigits, fun point => (ends _ point).2.1 rfl⟩
    | some exponent =>
        refine ⟨fun c first => ?_, nofun⟩
        cases first
        rfl
  have behindWhole : StopsDigits
      (placesChars t.places ++ (exponentChars? t.exponent? ++ rest)) := by
    cases shape : t.places with
    | nil => exact behindPlaces.1
    | cons c places =>
        intro c first
        cases first
        rfl
  have whole := whole?_append proper behindWhole
  have places := places?_append proper behindPlaces.1 behindPlaces.2
  have exponent := exponent?_append t.exponent? ends
  rw [chars_number]
  simp only [List.append_assoc]
  cases negative : t.negative with
  | true =>
      simp only [↓reduceIte, List.cons_append, List.nil_append, number?, Option.bind_eq_bind,
        whole, Option.bind_some, places, exponent]
      rw [← negative]
      rfl
  | false =>
      have unsigned : ∀ text', t.whole ++
          (placesChars t.places ++ (exponentChars? t.exponent? ++ rest)) = '-' :: text' →
          False := by
        intro text' same
        cases shape : t.whole with
        | nil => exact proper.nonempty shape
        | cons c digits =>
            rw [shape, List.cons_append] at same
            have digit := proper.whole c (by rw [shape]; exact List.mem_cons_self)
            rw [(List.cons.inj same).1] at digit
            cases digit
      simp only [Bool.false_eq_true, ↓reduceIte, List.nil_append]
      rw [number?.eq_2 _ unsigned]
      simp only [Option.bind_eq_bind, whole, Option.bind_some, places, exponent]
      rw [← negative]
      rfl

/-! ## Strings -/

theorem hexDigit?_digitChar {n : Nat} (below : n < 16) : hexDigit? n.digitChar = some n := by
  have all : ∀ n < 16, hexDigit? n.digitChar = some n := by decide
  exact all n below

theorem units?_cons {c : Char} (quote : c ≠ '"') (backslash : c ≠ '\\') (printable : 32 ≤ c.toNat)
    (rest : List Char) : units? (c :: rest) = (units? rest).map fun (units, rest) =>
      (c.toNat :: units, rest) := by
  rw [units?.eq_5 c rest (fun same => quote same) (fun _ _ _ _ _ same _ => backslash same)
    (fun _ _ same _ => backslash same), if_neg (Nat.not_lt_of_le printable)]
  cases units? rest <;> rfl

theorem units?_shortEscape {c : Char} {unit : Nat} (escape : shortEscape? c = some unit)
    (rest : List Char) : units? ('\\' :: c :: rest) = (units? rest).map fun (units, rest) =>
      (unit :: units, rest) := by
  have other : c ≠ 'u' := by
    rintro rfl
    cases escape
  rw [units?.eq_4 c rest (fun _ _ _ _ _ same _ => other same), escape]
  cases units? rest <;> rfl

/-- A character is read back from its spelling inside a string. -/
theorem units?_escapeChar (c : Char) (rest : List Char) :
    units? (escapeChar c ++ rest) = (units? rest).map fun (units, rest) =>
      (c.toNat :: units, rest) := by
  rw [escapeChar.eq_def]
  split
  · exact units?_shortEscape rfl rest
  · exact units?_shortEscape rfl rest
  · exact units?_shortEscape rfl rest
  · exact units?_shortEscape rfl rest
  · exact units?_shortEscape rfl rest
  · next quote backslash _ _ _ =>
      split
      · next unit =>
          rw [unit]
          exact units?_shortEscape rfl rest
      · split
        · next unit =>
            rw [unit]
            exact units?_shortEscape rfl rest
        · split
          · next control =>
              have value : hexValue? ['0', '0', Nat.digitChar (c.toNat / 16),
                  Nat.digitChar (c.toNat % 16)] = some c.toNat := by
                have high := hexDigit?_digitChar (n := c.toNat / 16) (by omega)
                have low := hexDigit?_digitChar (n := c.toNat % 16) (by omega)
                have zero : hexDigit? '0' = some 0 := rfl
                simp only [hexValue?, List.foldlM_cons, List.foldlM_nil, zero, high, low]
                simp
                omega
              simp only [List.cons_append, List.nil_append]
              rw [units?, value]
              cases units? rest <;> rfl
          · next printable =>
              exact units?_cons (fun same => quote same) (fun same => backslash same)
                (Nat.le_of_not_lt printable) rest

theorem units?_append (chars rest : List Char) :
    units? (chars.flatMap escapeChar ++ '"' :: rest) = some (chars.map Char.toNat, rest) := by
  induction chars with
  | nil => rfl
  | cons c chars ih =>
      rw [List.flatMap_cons, List.append_assoc, units?_escapeChar, ih]
      rfl

theorem no_surrogate (c : Char) : ¬ (0xD800 ≤ c.toNat ∧ c.toNat < 0xE000) := by
  have valid := c.valid
  simp only [UInt32.isValidChar, Nat.isValidChar] at valid
  simp only [Char.toNat]
  omega

theorem decodeUnits_toNat (chars : List Char) :
    decodeUnits (chars.map Char.toNat) = some chars := by
  induction chars with
  | nil => rfl
  | cons c chars ih =>
      have here := no_surrogate c
      cases chars with
      | nil =>
          simp only [List.map_cons, List.map_nil]
          rw [decodeUnits, if_neg here, Char.ofNat_toNat]
      | cons d chars =>
          simp only [List.map_cons] at ih ⊢
          rw [decodeUnits, if_neg (fun pair => here ⟨pair.1, Nat.lt_trans pair.2.1 (by decide)⟩),
            if_neg here, ih, Option.map_some, Char.ofNat_toNat]

theorem string?_append (s : String) (rest : List Char) :
    string? (s.toList.flatMap escapeChar ++ '"' :: rest) = some (string (some s), rest) := by
  rw [string?, units?_append, Option.map_some]
  simp only
  rw [decodeUnits_toNat, Option.map_some, String.ofList_toList]

end JsonToken

end CircuitDag
