import CircuitDag.Proofs.Yaml.BlockScalars
import CircuitDag.Proofs.Yaml.PlainScalars
import CircuitDag.Proofs.Yaml.QuotedScalars

/-!
# The characters of YAML text

Everything that is written is made of printed characters, which every text may hold and which are
read as they stand.
-/

set_option autoImplicit false

namespace CircuitDag.Yaml

variable {c : Char} {text : List Char}

/-- All characters of a text are printed. -/
def Printed (text : List Char) : Prop := ∀ c ∈ text, ScalarText.isPrintable c = true

theorem printed_nil : Printed [] := List.forall_mem_nil _

theorem printed_cons : Printed (c :: text) ↔ ScalarText.isPrintable c = true ∧ Printed text :=
  List.forall_mem_cons

theorem printed_append {more : List Char} : Printed (text ++ more) ↔ Printed text ∧ Printed more :=
  List.forall_mem_append

theorem printed_spaces (n : Nat) : Printed (List.replicate n ' ') := by
  intro c member
  rw [List.eq_of_mem_replicate member]
  decide

/-! ## Sources -/

theorem isAllowed_of_isPrintable (printable : ScalarText.isPrintable c = true) :
    isAllowed c = true := by
  simp only [ScalarText.isPrintable, Bool.or_eq_true, Bool.and_eq_true,
    decide_eq_true_eq] at printable
  rcases printable with (rfl | low) | ⟨⟨⟨high, -⟩, notFirst⟩, notSecond⟩
  · decide
  · simp [isAllowed, low]
  · by_cases large : 0x10000 ≤ c.toNat
    · simp [isAllowed, large]
    · have apart : ∀ d : Char, c ≠ d → c.toNat ≠ d.toNat :=
        fun d other same => other (Char.toNat_inj.mp same)
      have first := apart _ notFirst
      have second := apart _ notSecond
      have within : c ≤ '\ufffd' := by
        rw [Char.le_def, UInt32.le_iff_toNat_le]
        change c.toNat ≤ 0xfffd
        change c.toNat ≠ 0xfffe at first
        change c.toNat ≠ 0xffff at second
        omega
      simp [isAllowed, high, within]

theorem normalize_printed (printed : Printed text) : Source.normalize text = text := by
  induction text with
  | nil => rfl
  | cons c text ih =>
      obtain ⟨first, others⟩ := printed_cons.mp printed
      have other : ∀ d, ScalarText.isPrintable d = false → c ≠ d := by
        rintro d unprinted rfl
        cases first.symm.trans unprinted
      have carriage := other '\r' (by decide)
      have nextLine := other '\u0085' (by decide)
      rw [Source.normalize.eq_3 c text fun _ same => absurd same carriage, ih others]
      simp [carriage, nextLine]

/-- A printed text is taken as it stands. -/
theorem ofText?_printed (printed : Printed text) :
    Source.ofText? (String.ofList text) = some (Source.locate 0 0 0 text) := by
  have allowed : text.all isAllowed = true :=
    List.all_eq_true.mpr fun c member => isAllowed_of_isPrintable (printed c member)
  rw [Source.ofText?, String.toList_ofList, if_pos allowed, normalize_printed printed]

namespace ScalarText

/-! ## Strings -/

theorem printed_indentLines (indent : Nat) (printed : Printed text) :
    ∀ fresh, Printed (indentLines indent fresh text) := by
  induction text with
  | nil => exact fun _ => printed_nil
  | cons c text ih =>
      intro fresh
      obtain ⟨first, others⟩ := printed_cons.mp printed
      rw [indentLines]
      split
      · exact printed_cons.mpr ⟨first, ih others _⟩
      · split
        · exact printed_append.mpr ⟨printed_spaces indent, printed_cons.mpr ⟨first, ih others _⟩⟩
        · exact printed_cons.mpr ⟨first, ih others _⟩

theorem printed_quotedChars {spell : Char → List Char} {breaks : Char → Bool} (indent : Nat)
    (spelled : ∀ c ∈ text, Printed (spell c))
    (ends : ∀ c ∈ text, breaks c = true → isPrintable c = true) :
    ∀ fresh, Printed (quotedChars spell breaks indent fresh text) := by
  induction text with
  | nil =>
      intro fresh
      rw [quotedChars]
      split
      · exact printed_spaces indent
      · exact printed_nil
  | cons c text ih =>
      intro fresh
      rw [List.forall_mem_cons] at spelled ends
      have others := ih spelled.2 ends.2
      rw [quotedChars]
      split
      · next breaks => exact printed_cons.mpr ⟨ends.1 breaks, others _⟩
      · refine printed_append.mpr ⟨printed_append.mpr ⟨?_, spelled.1⟩, others _⟩
        split
        · exact printed_spaces indent
        · exact printed_nil

theorem printed_hexDigits (width n : Nat) : Printed (hexDigits width n) := by
  have digits : ∀ n < 16, isPrintable n.digitChar.toUpper = true := by decide
  induction width generalizing n with
  | zero => exact printed_nil
  | succ width ih =>
      rw [hexDigits]
      exact printed_append.mpr ⟨ih _,
        printed_cons.mpr ⟨digits _ (Nat.mod_lt n (by decide)), printed_nil⟩⟩

theorem printed_escape (c : Char) : Printed (escape c) := by
  rw [escape.eq_def]
  split
  case h_16 =>
    split <;> [skip; split] <;> exact printed_cons.mpr ⟨by decide, printed_hexDigits _ _⟩
  all_goals exact printed_cons.mpr ⟨by decide, printed_nil⟩

theorem printed_escaped (c : Char) : Printed (escaped c) := by
  rw [escaped]
  split
  · exact printed_cons.mpr ⟨by decide, printed_escape c⟩
  · next plain =>
      simp only [Bool.or_eq_true, not_or, Bool.not_eq_true', Bool.not_eq_true,
        Bool.not_eq_false] at plain
      exact printed_cons.mpr ⟨plain.1.1.1, printed_nil⟩

theorem printed_of_needsEscapes (none : needsEscapes text = false) : Printed text := by
  simp only [needsEscapes, Bool.or_eq_false_iff, List.any_eq_false] at none
  exact fun c member => by simpa using none.1 c member

theorem printed_singleQuoted (indent : Nat) (allowed : singleAllowed text = true) :
    Printed (singleQuoted indent text) := by
  simp only [singleAllowed, Bool.and_eq_true, Bool.not_eq_true'] at allowed
  have printed := printed_of_needsEscapes allowed.1
  have spelled : ∀ c ∈ text, Printed (doubledQuote c) := by
    intro c member
    rw [doubledQuote]
    split
    · exact printed_cons.mpr ⟨by decide, printed_cons.mpr ⟨by decide, printed_nil⟩⟩
    · exact printed_cons.mpr ⟨printed c member, printed_nil⟩
  rw [singleQuoted_eq]
  exact printed_cons.mpr ⟨by decide, printed_append.mpr
    ⟨printed_quotedChars indent spelled (fun c member _ => printed c member) false,
      printed_cons.mpr ⟨by decide, printed_nil⟩⟩⟩

theorem printed_doubleQuoted (text : List Char) : Printed (doubleQuoted text) := by
  rw [doubleQuoted_eq 0]
  exact printed_cons.mpr ⟨by decide, printed_append.mpr
    ⟨printed_quotedChars 0 (fun c _ => printed_escaped c) (fun c _ breaks => by cases breaks) false,
      printed_cons.mpr ⟨by decide, printed_nil⟩⟩⟩

theorem printed_literal (indent : Nat) (allowed : literalAllowed text = true) :
    Printed (literal indent text) := by
  simp only [literalAllowed, Bool.and_eq_true, Bool.not_eq_true'] at allowed
  have printed := printed_of_needsEscapes allowed.1.2
  have ending : Printed (BlockScalar.lineEnd text) := by
    rw [BlockScalar.lineEnd]
    split
    · exact printed_nil
    · exact printed_cons.mpr ⟨by decide, printed_nil⟩
  have signs : ∀ chomping, Printed (BlockScalar.signChars chomping) := by
    intro chomping
    cases chomping
    · exact printed_cons.mpr ⟨by decide, printed_nil⟩
    · exact printed_nil
    · exact printed_cons.mpr ⟨by decide, printed_nil⟩
  have digit : ∀ given : Bool, Printed (if given then ['2'] else []) := by
    intro given
    cases given
    · exact printed_nil
    · exact printed_cons.mpr ⟨by decide, printed_nil⟩
  rw [BlockScalar.literal_eq, BlockScalar.literalHeader_eq]
  exact printed_append.mpr ⟨printed_cons.mpr ⟨by decide, printed_append.mpr ⟨digit _, signs _⟩⟩,
    printed_cons.mpr ⟨by decide,
      printed_indentLines indent (printed_append.mpr ⟨printed, ending⟩) true⟩⟩

/-- The styles in which a string is written, with what allows them. -/
theorem write_cases (indent : Nat) (text : String) :
    (style text = .plain ∧ needsQuotes text = false ∧ plainAllowed text.toList = true ∧
        write indent text = text.toList ++ ['\n']) ∨
      (style text = .singleQuoted ∧ singleAllowed text.toList = true ∧
        (∀ c ∈ text.toList, c ≠ '\n') ∧
        write indent text = singleQuoted indent text.toList ++ ['\n']) ∨
      (style text = .literal ∧ literalAllowed text.toList = true ∧
        write indent text = literal indent text.toList) ∨
      (style text = .doubleQuoted ∧ write indent text = doubleQuoted text.toList ++ ['\n']) := by
  have double : style text = .doubleQuoted →
      style text = .doubleQuoted ∧ write indent text = doubleQuoted text.toList ++ ['\n'] :=
    fun kind => ⟨kind, by rw [write, kind]⟩
  by_cases feeds : text.toList.contains '\n' = true
  · by_cases allowed : literalAllowed text.toList = true
    · have kind : style text = .literal := by simp only [style, feeds, allowed, ↓reduceIte]
      exact .inr (.inr (.inl ⟨kind, allowed, by rw [write, kind]⟩))
    · exact .inr (.inr (.inr (double (by
        simp only [style, feeds, allowed, ↓reduceIte, Bool.false_eq_true]))))
  · by_cases bare : (!needsQuotes text && plainAllowed text.toList) = true
    · have kind : style text = .plain := by
        simp only [style, feeds, bare, ↓reduceIte, Bool.false_eq_true]
      simp only [Bool.and_eq_true, Bool.not_eq_true'] at bare
      exact .inl ⟨kind, bare.1, bare.2, by rw [write, kind]⟩
    · by_cases allowed : singleAllowed text.toList = true
      · have kind : style text = .singleQuoted := by
          simp only [style, feeds, bare, allowed, ↓reduceIte, Bool.false_eq_true]
        refine .inr (.inl ⟨kind, allowed, ?_, by rw [write, kind]⟩)
        rintro c member rfl
        exact feeds (List.contains_iff_mem.mpr member)
      · exact .inr (.inr (.inr (double (by
          simp only [style, feeds, bare, allowed, ↓reduceIte, Bool.false_eq_true]))))

theorem printed_write (indent : Nat) (text : String) : Printed (write indent text) := by
  have lineEnd : Printed ['\n'] := printed_cons.mpr ⟨by decide, printed_nil⟩
  rcases write_cases indent text with ⟨-, -, allowed, written⟩ | ⟨-, allowed, -, written⟩ |
    ⟨-, allowed, written⟩ | ⟨-, written⟩
  · rw [written]
    exact printed_append.mpr ⟨(coherent_of_plainAllowed allowed).printable, lineEnd⟩
  · rw [written]
    exact printed_append.mpr ⟨printed_singleQuoted indent allowed, lineEnd⟩
  · rw [written]
    exact printed_literal indent allowed
  · rw [written]
    exact printed_append.mpr ⟨printed_doubleQuoted _, lineEnd⟩

end ScalarText

end CircuitDag.Yaml
