import CircuitDag.Proofs.Yaml.Places
import CircuitDag.Yaml.PlainScalar

/-!
# Reading plain scalars

A text that may be written plain is read back, up to a colon or to the end of its line. The blanks
at the start of the next line are taken along.
-/

set_option autoImplicit false

namespace CircuitDag.Yaml

open Source (At)

variable {margin column k : Nat} {c : Char} {text rest acc blanks : List Char} {s : Source}

/-- The number of octets of a text. -/
def octets : List Char → Nat
  | [] => 0
  | c :: text => c.utf8Size + octets text

/-- What keeps plain text in one piece: it is printed on one line, no space stands at its end, no
colon stands before a blank or at its end, and no number sign behind a blank. -/
structure Coherent (text : List Char) : Prop where
  printable : ∀ c ∈ text, ScalarText.isPrintable c = true
  inLine : ∀ c ∈ text, isBreak c = false
  colons : ScalarText.hasPair (· = ':') endsWord (text ++ [endMark]) = false
  comments : ScalarText.hasPair endsWord (· = '#') text = false
  closed : text.getLast? ≠ some ' '

theorem Coherent.tail (coherent : Coherent (c :: text)) : Coherent text where
  printable := (List.forall_mem_cons.mp coherent.printable).2
  inLine := (List.forall_mem_cons.mp coherent.inLine).2
  colons := by
    have colons := coherent.colons
    cases text with
    | nil => rfl
    | cons d text => exact (Bool.or_eq_false_iff.mp colons).2
  comments := by
    have comments := coherent.comments
    cases text with
    | nil => rfl
    | cons d text => exact (Bool.or_eq_false_iff.mp comments).2
  closed := by
    have closed := coherent.closed
    cases text with
    | nil => nofun
    | cons d text => rwa [List.getLast?_cons_cons] at closed

theorem Coherent.append_right (coherent : Coherent (blanks ++ text)) : Coherent text := by
  induction blanks with
  | nil => exact coherent
  | cons c blanks ih => exact ih coherent.tail

/-- A number sign does not stand behind a space. -/
theorem Coherent.ne_numberSign (coherent : Coherent (blanks ++ c :: text)) (some : blanks ≠ [])
    (spaces : ∀ c ∈ blanks, c = ' ') : c ≠ '#' := by
  obtain ⟨before, last, rfl⟩ : ∃ before last, blanks = before ++ [last] :=
    ⟨_, _, (List.dropLast_concat_getLast some).symm⟩
  rw [List.append_assoc, List.singleton_append] at coherent
  have comments := coherent.append_right.comments
  have space := spaces last (by simp)
  subst space
  rintro rfl
  cases comments

namespace PlainScalar

/-- Within a coherent text the scalar does not end at a colon. -/
theorem endsBefore_eq_false (coherent : Coherent (c :: text)) {p : Place} {s : Source}
    (behind : s.At column (text ++ rest)) (char : p.char = c) :
    endsBefore false p.char s.peek = false := by
  have printable := coherent.printable c List.mem_cons_self
  have colons := coherent.colons
  rw [endsBefore, char, behind.peek_eq, decide_eq_false (ScalarText.ne_endMark printable)]
  cases text with
  | nil =>
      have other : c ≠ ':' := by
        rintro rfl
        cases colons
      simp [other]
  | cons d text =>
      have apart := (Bool.or_eq_false_iff.mp colons).1
      simpa using apart

theorem endsAfterGap_eq_false (here : s.At column (c :: text)) (other : c ≠ '#')
    (deep : margin ≤ column) (indented : 0 < column) : endsAfterGap false margin s = false := by
  have marker := here.not_startsWithMarker indented
  rw [endsAfterGap, Source.atDocumentMarker, marker, marker, here.peek_eq, here.column_eq,
    decide_eq_false (Nat.not_lt.mpr deep)]
  simp [other]

/-- A coherent text is taken as a whole. -/
theorem scan?_coherent (acc blanks rest : List Char) (line index : Nat)
    (coherent : Coherent (blanks ++ text))
    (spaces : ∀ c ∈ blanks, c = ' ') (deep : margin ≤ column + 1)
    (behind : blanks ≠ [] → 0 < column ∧ margin ≤ column) :
    scan? false margin acc { blanks } (Source.locate line column index (text ++ rest)) =
      scan? false margin ((blanks ++ text).reverse ++ acc) {}
        (Source.locate line (column + text.length) (index + octets text) rest) := by
  induction text generalizing acc column index blanks with
  | nil =>
      have none : blanks = [] := by
        by_contra some
        obtain ⟨before, last, rfl⟩ : ∃ before last, blanks = before ++ [last] :=
          ⟨_, _, (List.dropLast_concat_getLast some).symm⟩
        have closed := coherent.closed
        rw [spaces last (by simp)] at closed
        simp at closed
      subst none
      rfl
  | cons c text ih =>
      have inLine : isBreak c = false := coherent.append_right.inLine c List.mem_cons_self
      have printable := coherent.append_right.printable c List.mem_cons_self
      have here : At (Source.locate line column index (c :: text ++ rest)) column
        (c :: text ++ rest) := ⟨_, _, rfl⟩
      have after : At (Source.locate line (column + 1) (index + c.utf8Size) (text ++ rest))
        (column + 1) (text ++ rest) := ⟨_, _, rfl⟩
      have length : column + (c :: text).length = column + 1 + text.length := by
        rw [List.length_cons, Nat.add_comm text.length, Nat.add_assoc]
      have size : index + octets (c :: text) = index + c.utf8Size + octets text := by
        rw [octets, Nat.add_assoc]
      rw [List.cons_append, Source.locate, inLine] at here ⊢
      simp only [Bool.false_eq_true, ↓reduceIte] at here ⊢
      rw [length, size, scan?]
      by_cases blank : isBlank c = true
      · have space := ScalarText.eq_space_of_isBlank printable blank
        subst space
        have more := ih acc (blanks ++ [' ']) (index + ' '.utf8Size) (by simpa using coherent)
          (List.forall_mem_append.mpr ⟨spaces, by simp⟩) (Nat.le_succ_of_le deep)
          (fun _ => ⟨Nat.succ_pos column, deep⟩)
        simpa [blank, Gap.refusesTab, Gap.addBlank] using more
      · have more := ih (c :: (blanks.reverse ++ acc)) [] (index + c.utf8Size)
          coherent.append_right.tail
          (List.forall_mem_nil _) (Nat.le_succ_of_le deep) (fun some => absurd rfl some)
        have open' := endsBefore_eq_false coherent.append_right after
          (p := ⟨c, line, column, index⟩) rfl
        have goesOn : (!({ blanks } : Gap).isEmpty && endsAfterGap false margin
            (⟨c, line, column, index⟩ ::
              Source.locate line (column + 1) (index + c.utf8Size) (text ++ rest))) = false := by
          by_cases some : blanks = []
          · subst some
            rfl
          · rw [endsAfterGap_eq_false here (coherent.ne_numberSign some spaces) (behind some).2
              (behind some).1, Bool.and_false]
        simp only [blank, Bool.false_eq_true, ↓reduceIte, inLine, goesOn, isRefused, Bool.false_and,
          open', Gap.text, Bool.not_false]
        simpa using more

/-- Past a line end, the scalar ends at the next word that leaves its block. -/
theorem scan?_indentation (acc : List Char) {gap : Gap} (folded : gap.folded = true)
    (here : s.At column (List.replicate k ' ' ++ rest)) (starts : StartsWord rest)
    (leaves : column + k < margin) :
    ∃ s', scan? false margin acc gap s = some (⟨String.ofList acc.reverse, true⟩, s') ∧
      s'.At (column + k) rest := by
  induction k generalizing s column gap with
  | zero =>
      refine ⟨s, ?_, here⟩
      obtain ⟨p, s', rfl, char, -⟩ := (show At s column rest from here).front
      rw [Nat.add_zero] at leaves
      have outside : endsAfterGap false margin (p :: s') = true := by
        rw [endsAfterGap, here.column_eq, decide_eq_true leaves]
        simp
      have some : gap.isEmpty = false := by simp [Gap.isEmpty, folded]
      have solid := starts.solid
      rw [← char] at solid
      rw [scan?, solid.1, solid.2, some, outside, folded]
      rfl
  | succ k ih =>
      obtain ⟨p, s, rfl, char, -, behind⟩ := here.next (by decide)
      have same : gap.addBlank ' ' = gap := by rw [Gap.addBlank, if_pos folded]
      obtain ⟨s', read, there⟩ := ih folded behind (by rwa [Nat.add_right_comm])
      refine ⟨s', ?_, by rwa [Nat.add_right_comm] at there⟩
      rw [scan?, char, same, read, Gap.refusesTab, char]
      simp [isBlank]

theorem scan?_lineEnd (acc : List Char)
    (here : s.At column ('\n' :: (List.replicate k ' ' ++ rest)))
    (starts : StartsWord rest) (leaves : k < margin) :
    ∃ s', scan? false margin acc {} s = some (⟨String.ofList acc.reverse, true⟩, s') ∧
      s'.At k rest := by
  obtain ⟨p, s, rfl, char, -, behind⟩ := here.nextLine rfl
  obtain ⟨s', read, there⟩ := scan?_indentation acc
    (show (Gap.addBreak {} '\n').folded = true from rfl) behind starts (by rwa [Nat.zero_add])
  refine ⟨s', ?_, by rwa [Nat.zero_add] at there⟩
  rw [scan?, char, read]
  rfl

theorem read?_value (coherent : Coherent text)
    (here : s.At column (text ++ '\n' :: (List.replicate k ' ' ++ rest)))
    (deep : margin ≤ column + 1)
    (starts : StartsWord rest) (leaves : k < margin) :
    ∃ s', read? false margin s = some (⟨String.ofList text, true⟩, s') ∧ s'.At k rest := by
  obtain ⟨line, index, rfl⟩ := here
  obtain ⟨s', read, there⟩ := scan?_lineEnd text.reverse (s := Source.locate line
    (column + text.length) (index + octets text) ('\n' :: (List.replicate k ' ' ++ rest)))
    ⟨_, _, rfl⟩ starts leaves
  refine ⟨s', ?_, there⟩
  have whole := scan?_coherent [] [] ('\n' :: (List.replicate k ' ' ++ rest)) line index coherent
    (List.forall_mem_nil _) deep fun some => absurd rfl some
  simp only [List.nil_append, List.append_nil] at whole
  rw [read?, whole, read, List.reverse_reverse]

theorem read?_key (line index : Nat) (coherent : Coherent text) (deep : margin ≤ column + 1)
    (ends : endsWord (rest.head?.getD endMark) = true) :
    read? false margin (Source.locate line column index (text ++ ':' :: rest)) =
      some (⟨String.ofList text, false⟩, Source.locate line (column + text.length)
        (index + octets text) (':' :: rest)) := by
  have whole := scan?_coherent [] [] (':' :: rest) line index coherent (List.forall_mem_nil _) deep
    fun some => absurd rfl some
  simp only [List.nil_append, List.append_nil] at whole
  rw [read?, whole]
  have behind : At (Source.locate line (column + text.length + 1)
    (index + octets text + ':'.utf8Size) rest) (column + text.length + 1) rest := ⟨_, _, rfl⟩
  rw [Source.locate, if_neg (by decide), scan?, behind.peek_eq]
  simp only [endsBefore, ends]
  simp [isBlank, isBreak, Gap.isEmpty, isRefused]

/-! ## Where plain scalars start -/

/-- A text that goes on with a plain scalar: its first character is no blank and no indicator, and a
question mark, colon or hyphen is followed by something. -/
structure Starts (c : Char) (rest : List Char) : Prop where
  solid : endsWord c = false
  noIndicator : "#,[]\x7b\x7d&*!|>'\"%@`".toList.contains c = false
  followed : "?:-".toList.contains c = true → endsWord (rest.head?.getD endMark) = false

theorem Starts.inLine (starts : Starts c rest) : isBreak c = false := by
  have solid := starts.solid
  simp only [endsWord, endsLine, Bool.or_eq_false_iff] at solid
  exact solid.2.1

theorem startsAt_of_starts (starts : Starts c rest) (here : s.At column (c :: rest)) :
    startsAt false s = true := by
  have next : Source.peek (s.drop 1) = rest.head?.getD endMark :=
    (here.drop_one starts.inLine).peek_eq
  have solid := starts.solid
  have followed := starts.followed
  have noIndicator := starts.noIndicator
  simp only [startsAt, here.peek_eq, next, List.head?_cons, Option.getD_some]
  split
  · next hyphen =>
      have word := followed (by rw [hyphen]; decide)
      simp only [endsWord, Bool.or_eq_false_iff] at word
      rw [word.1]
      rfl
  · split
    · next either =>
        have word := followed (by
          rw [Bool.or_eq_true, decide_eq_true_eq, decide_eq_true_eq] at either
          rcases either with rfl | rfl <;> decide)
        simp [word]
    · simp at noIndicator
      simp [solid, noIndicator]

end PlainScalar

/-! ## Texts that may be written plain -/

namespace ScalarText

theorem coherent_of_plainAllowed (allowed : plainAllowed text = true) : Coherent text := by
  simp only [plainAllowed, needsEscapes, holdsIndicator, Bool.and_eq_true, Bool.not_eq_true',
    Bool.or_eq_false_iff, List.any_eq_false] at allowed
  obtain ⟨⟨⟨⟨⟨⟨-, printable, -⟩, inLine⟩, -⟩, colons, comments⟩, -⟩, closed⟩ := allowed
  refine ⟨?_, ?_, colons, comments, ?_⟩
  · intro c member
    simpa using printable c member
  · intro c member
    simpa using inLine c member
  · intro space
    rw [space] at closed
    cases closed

theorem starts_of_plainAllowed (allowed : plainAllowed text = true) (rest : List Char) :
    ∃ c text', text = c :: text' ∧ PlainScalar.Starts c (text' ++ rest) := by
  have coherent := coherent_of_plainAllowed allowed
  simp only [plainAllowed, Bool.and_eq_true, Bool.not_eq_true'] at allowed
  obtain ⟨⟨⟨⟨⟨⟨nonempty, -⟩, -⟩, indicators⟩, -⟩, first⟩, -⟩ := allowed
  cases text with
  | nil => cases nonempty
  | cons c text =>
      have printable := coherent.printable c List.mem_cons_self
      simp only [startsWithIndicator, Bool.or_eq_false_iff, Bool.and_eq_false_iff] at indicators
      obtain ⟨⟨⟨noIndicator, followed⟩, -⟩, -⟩ := indicators
      refine ⟨c, text, rfl, ?_, noIndicator, fun hanging => ?_⟩
      · have blank : isBlank c = false := by
          by_contra blank
          cases eq_space_of_isBlank printable (Bool.of_not_eq_false blank)
          cases first
        simp [endsWord, endsLine, blank, coherent.inLine c List.mem_cons_self,
          ne_endMark printable]
      · have behind := followed.resolve_left (ne_false_of_eq_true hanging)
        cases text with
        | nil => cases behind
        | cons d text => exact behind

/-- The characters of names and numerals. -/
def isWordChar (c : Char) : Bool := isNameChar c || c = '.'

theorem ne_of_isWordChar {d : Char} (word : isWordChar c = true) (other : isWordChar d = false) :
    c ≠ d := by
  rintro rfl
  cases word.symm.trans other

theorem isPrintable_of_isWordChar (word : isWordChar c = true) : isPrintable c = true := by
  have within : ∀ {low high : Char}, ' ' ≤ low → high ≤ '~' → low ≤ c → c ≤ high →
      isPrintable c = true := by
    intro low high above below least most
    have printed : ' ' ≤ c ∧ c ≤ '~' := ⟨Char.le_trans above least, Char.le_trans most below⟩
    simp [isPrintable, printed]
  simp only [isWordChar, isNameChar] at word
  delta Char.isAlphanum Char.isAlpha Char.isUpper Char.isLower Char.isDigit at word
  simp only [Bool.or_eq_true, Bool.and_eq_true, decide_eq_true_eq] at word
  rcases word with ((((⟨least, most⟩ | ⟨least, most⟩) | ⟨least, most⟩) | rfl) | rfl) | rfl
  · exact within (by decide) (by decide) least most
  · exact within (by decide) (by decide) least most
  · exact within (by decide) (by decide) least most
  · decide
  · decide
  · decide

theorem not_isSpaceOrBreak_of_isWordChar (word : isWordChar c = true) :
    isSpaceOrBreak c = false := by
  simp only [isSpaceOrBreak, isBreak, Bool.or_eq_false_iff, decide_eq_false_iff_not]
  exact ⟨ne_of_isWordChar word (by decide), ⟨ne_of_isWordChar word (by decide),
    ne_of_isWordChar word (by decide)⟩, ne_of_isWordChar word (by decide)⟩

theorem contains_eq_false {kind : Char → Bool} {others : List Char} (kinds : kind c = true)
    (other : others.all (fun d => !kind d) = true) : others.contains c = false := by
  by_contra member
  have member := List.contains_iff_mem.mp (Bool.of_not_eq_false member)
  have differs := List.all_eq_true.mp other c member
  rw [kinds] at differs
  cases differs

theorem endsWord_eq_false_of_word (word : isWordChar c = true) : endsWord c = false := by
  have solid := not_isSpaceOrBreak_of_isWordChar word
  simp only [isSpaceOrBreak, Bool.or_eq_false_iff, decide_eq_false_iff_not] at solid
  simp [endsWord, endsLine, isBlank, solid,
    ne_of_isWordChar word (show isWordChar '\t' = false by decide),
    ne_of_isWordChar word (show isWordChar endMark = false by decide)]

theorem startsWithIndicator_of_word (word : ∀ c ∈ text, isWordChar c = true)
    (letter : (text.take 3).any Char.isAlphanum = true) : startsWithIndicator text = false := by
  cases text with
  | nil => rfl
  | cons c text =>
      have hanging : ("?:-".toList.contains c && endsWord (text.head?.getD endMark)) = false := by
        cases text with
        | nil =>
            have alone : c.isAlphanum = true := by simpa using letter
            rw [contains_eq_false alone (by decide), Bool.false_and]
        | cons d text =>
            have named := word d (List.mem_cons_of_mem _ List.mem_cons_self)
            rw [List.head?_cons, Option.getD_some, endsWord_eq_false_of_word named, Bool.and_false]
      have marker : ∀ m : Char, m.isAlphanum = false → (c :: text).take 3 ≠ [m, m, m] := by
        intro m other same
        rw [same] at letter
        simp [other] at letter
      rw [startsWithIndicator, hanging, decide_eq_false (marker '-' (by decide)),
        decide_eq_false (marker '.' (by decide)),
        contains_eq_false (word c List.mem_cons_self) (by decide)]
      rfl

/-- Words with a letter or digit near their start may be written plain. -/
theorem plainAllowed_of_word (word : ∀ c ∈ text, isWordChar c = true)
    (letter : (text.take 3).any Char.isAlphanum = true) : plainAllowed text = true := by
  have apart : ∀ {d : Char}, isWordChar d = false → ∀ c ∈ text, decide (c = d) = false :=
    fun other c member => decide_eq_false (ne_of_isWordChar (word c member) other)
  have escapes : needsEscapes text = false := by
    rw [needsEscapes, hasPair_eq_false_of_first (apart (by decide)), Bool.or_false,
      List.any_eq_false]
    exact fun c member => by simp [isPrintable_of_isWordChar (word c member)]
  have colons : hasPair (· = ':') endsWord (text ++ [endMark]) = false := by
    refine hasPair_eq_false_of_first (List.forall_mem_append.mpr ⟨apart (by decide), ?_⟩)
    exact List.forall_mem_singleton.mpr (by decide)
  have comments : hasPair endsWord (· = '#') text = false :=
    hasPair_eq_false_of_second (apart (by decide))
  have solid : ∀ c ∈ text, isSpaceOrBreak c = false :=
    fun c member => not_isSpaceOrBreak_of_isWordChar (word c member)
  have breaks : text.any isBreak = false := by
    rw [List.any_eq_false]
    intro c member
    have alone := solid c member
    simp only [isSpaceOrBreak, Bool.or_eq_false_iff] at alone
    simp [alone.2]
  have first : text.head?.any isSpaceOrBreak = false := by
    cases text with
    | nil => rfl
    | cons c text => exact solid c List.mem_cons_self
  have last : text.getLast?.any isSpaceOrBreak = false := by
    cases shape : text.getLast? with
    | none => rfl
    | some c => exact solid c (List.mem_of_getLast? shape)
  have indicators : startsWithIndicator text = false := startsWithIndicator_of_word word letter
  have nonempty : text.isEmpty = false := by
    cases text with
    | nil => cases letter
    | cons c text => rfl
  simp only [plainAllowed, holdsIndicator, escapes, colons, comments, breaks, first, last,
    indicators, nonempty]
  rfl

end ScalarText

end CircuitDag.Yaml
