import CircuitDag.Proofs.Yaml.Places
import CircuitDag.Yaml.BlockScalar
import Mathlib.Data.List.TakeWhile

/-!
# Reading literal scalars

A text with line feeds is read back from its indented lines. The header keeps what the lines alone
do not tell: how far they are indented, and which line ends belong to the text.
-/

set_option autoImplicit false

namespace CircuitDag.Yaml

open Source (At)

variable {column indent margin k : Nat} {c : Char} {text rest : List Char} {s : Source}

/-! ## Lines -/

namespace ScalarText

/-- Lines with their ends, the first of them not empty. -/
inductive Lined : List Char → Prop
  | nil : Lined []
  | cons {line ends rest : List Char} {c : Char} (some : line ≠ [])
      (inLine : ∀ d ∈ line, isBreak d = false) (first : isBreak c = true)
      (others : ∀ d ∈ ends, isBreak d = true) (more : Lined rest) :
      Lined (line ++ c :: (ends ++ rest))

theorem head?_dropWhile {kind : Char → Bool} {d : Char}
    (first : (text.dropWhile kind).head? = some d) : kind d = false := by
  have none := List.head?_dropWhile_not kind text
  rw [first] at none
  simpa using none

/-- A text is lined if it begins with no line end and its last line ends. -/
theorem lined_of_ends (starts : ∀ c, text.head? = some c → isBreak c = false)
    (ends : ∀ c, text.getLast? = some c → isBreak c = true) : Lined text := by
  generalize size : text.length = n
  induction n using Nat.strongRecOn generalizing text with
  | ind n ih =>
      cases shape : text.dropWhile (!isBreak ·) with
      | nil =>
          cases text with
          | nil => exact .nil
          | cons c text =>
              rw [List.dropWhile_eq_nil_iff] at shape
              have last := ends _ (List.getLast?_eq_some_getLast (List.cons_ne_nil c text))
              have solid := shape _ (List.getLast_mem (List.cons_ne_nil c text))
              simp [last] at solid
      | cons c after =>
          have first : isBreak c = true := by
            have other := head?_dropWhile (congrArg List.head? shape)
            simpa using other
          have whole : text = text.takeWhile (!isBreak ·) ++
              c :: (after.takeWhile isBreak ++ after.dropWhile isBreak) := by
            rw [List.takeWhile_append_dropWhile, ← shape, List.takeWhile_append_dropWhile]
          generalize later : after.dropWhile isBreak = more at whole
          have some : text.takeWhile (!isBreak ·) ≠ [] := by
            intro none
            rw [none] at whole
            have other := starts c (by rw [whole]; rfl)
            cases first.symm.trans other
          rw [whole]
          refine .cons some ?_ first (fun d => List.mem_takeWhile_imp) (ih more.length ?_ ?_ ?_ rfl)
          · intro d member
            simpa using List.mem_takeWhile_imp member
          · rw [← size, whole]
            simp only [List.length_append, List.length_cons]
            omega
          · intro d head
            exact head?_dropWhile (later ▸ head)
          · intro d last
            refine ends d ?_
            rw [whole]
            simp [List.getLast?_append, List.getLast?_cons, last]

theorem Lined.head (lined : Lined text) : ∀ c, text.head? = some c → isBreak c = false := by
  cases lined with
  | nil => nofun
  | @cons line _ _ _ some inLine =>
      intro d head
      cases line with
      | nil => exact absurd rfl some
      | cons e line =>
          cases head
          exact inLine _ List.mem_cons_self

theorem indentLines_append_breaks (indent : Nat) {breaks : List Char}
    (all : ∀ c ∈ breaks, isBreak c = true)
    (text : List Char) :
    indentLines indent true (breaks ++ text) = breaks ++ indentLines indent true text := by
  induction breaks with
  | nil => rfl
  | cons c breaks ih =>
      rw [List.forall_mem_cons] at all
      rw [List.cons_append, indentLines, if_pos all.1, ih all.2, List.cons_append]

theorem indentLines_line (indent : Nat) {line : List Char} (inLine : ∀ c ∈ line, isBreak c = false)
    (first : isBreak c = true) (text : List Char) :
    indentLines indent false (line ++ c :: text) = line ++ c :: indentLines indent true text := by
  induction line with
  | nil => rw [List.nil_append, indentLines, if_pos first, List.nil_append]
  | cons d line ih =>
      rw [List.forall_mem_cons] at inLine
      rw [List.cons_append, indentLines, inLine.1, ih inLine.2]
      rfl

theorem length_le_indentLines (indent : Nat) (fresh : Bool) (text : List Char) :
    text.length ≤ (indentLines indent fresh text).length := by
  induction text generalizing fresh with
  | nil => exact Nat.le_refl _
  | cons c text ih =>
      have ended := ih true
      have inLine := ih false
      rw [indentLines]
      split
      · rw [List.length_cons, List.length_cons]
        omega
      · split <;> simp only [List.length_cons, List.length_append] <;> omega

theorem indentLines_fresh (indent : Nat) (inLine : isBreak c = false) (text : List Char) :
    indentLines indent true (c :: text) =
      List.replicate indent ' ' ++ indentLines indent false (c :: text) := by
  rw [indentLines, indentLines, inLine]
  rfl

end ScalarText

namespace BlockScalar

/-! ## Empty lines -/

/-- Spaces are skipped as far as the lines are indented. -/
theorem emptyLines?_spaces (lines : EmptyLines) (n : Nat)
    (within : indent = 0 ∨ column + n ≤ indent)
    (here : s.At column (List.replicate n ' ' ++ rest)) :
    ∃ s', emptyLines? indent lines s = emptyLines? indent lines s' ∧ s'.At (column + n) rest := by
  induction n generalizing s column with
  | zero => exact ⟨s, rfl, here⟩
  | succ n ih =>
      obtain ⟨p, s, rfl, char, place, behind⟩ := here.next (by decide)
      obtain ⟨s', same, there⟩ := ih (by omega) behind
      refine ⟨s', ?_, by rwa [Nat.add_right_comm] at there⟩
      have inside : (decide (indent = 0) || decide (p.column < indent)) = true := by
        rw [place, Bool.or_eq_true, decide_eq_true_eq, decide_eq_true_eq]
        omega
      rw [emptyLines?, inside, char, ← same]
      rfl

/-- A character that ends no line stops the empty lines, unless it is a blank that indents. -/
theorem emptyLines?_stop (indent : Nat) (lines : EmptyLines) (here : s.At column text)
    (solid : isBreak (text.head?.getD endMark) = false)
    (word : isBlank (text.head?.getD endMark) = false ∨ indent ≠ 0 ∧ indent ≤ column) :
    emptyLines? indent lines s = some ({ lines with deepest := max lines.deepest column }, s) := by
  obtain ⟨p, s, rfl, char, rfl⟩ := here.front
  rw [← char] at solid word
  have outside : ∀ blank, isBlank blank = true →
      ((decide (indent = 0) || decide (p.column < indent)) && decide (p.char = blank)) = false := by
    intro blank known
    rcases word with other | ⟨some, deep⟩
    · have apart : p.char ≠ blank := by
        rintro rfl
        cases known.symm.trans other
      rw [decide_eq_false apart, Bool.and_false]
    · rw [decide_eq_false some, decide_eq_false (Nat.not_lt.mpr deep)]
      rfl
  rw [emptyLines?]
  simp only [outside ' ' rfl, outside '\t' rfl, solid, Bool.false_eq_true, ↓reduceIte]

theorem emptyLines?_breaks (indent : Nat) (lines : EmptyLines) {breaks : List Char}
    (all : ∀ c ∈ breaks, isBreak c = true) (here : s.At 0 (breaks ++ rest)) :
    ∃ s', s'.At 0 rest ∧ emptyLines? indent lines s =
      emptyLines? indent { lines with breaks := lines.breaks ++ breaks } s' := by
  induction breaks generalizing s lines with
  | nil => exact ⟨s, here, by rw [List.append_nil]⟩
  | cons c breaks ih =>
      rw [List.forall_mem_cons] at all
      obtain ⟨p, s, rfl, rfl, place, behind⟩ := here.nextLine all.1
      obtain ⟨s', there, same⟩ :=
        ih { lines with breaks := lines.breaks ++ [p.char] } all.2 behind
      refine ⟨s', there, ?_⟩
      have other : ∀ blank, isBlank blank = true → decide (p.char = blank) = false := by
        intro blank known
        refine decide_eq_false ?_
        rintro rfl
        cases known.symm.trans (not_isBlank_of_isBreak all.1)
      rw [emptyLines?]
      simp only [other ' ' rfl, other '\t' rfl, Bool.and_false, Bool.false_eq_true, ↓reduceIte,
        all.1, place, Nat.max_zero, same, List.append_assoc, List.singleton_append]

/-! ## Reading lines -/

/-- Where the text of the scalar goes on: at its next line, or in column `k` of the line behind. -/
def AtLine (indent k : Nat) (rest : List Char) (s : Source) : List Char → Prop
  | [] => s.At k rest
  | c :: text =>
      s.At indent (ScalarText.indentLines indent false (c :: text) ++
        (List.replicate k ' ' ++ rest))

theorem emptyLines?_lined {breaks : List Char} (all : ∀ c ∈ breaks, isBreak c = true)
    (inLine : ∀ c, text.head? = some c → isBreak c = false) (starts : StartsWord rest)
    (leaves : k < indent)
    (here : s.At 0 (breaks ++ (ScalarText.indentLines indent true text ++
      (List.replicate k ' ' ++ rest)))) :
    ∃ s' deepest, emptyLines? indent {} s = some (⟨breaks, deepest⟩, s') ∧
      AtLine indent k rest s' text := by
  obtain ⟨s₁, behind, same⟩ := emptyLines?_breaks indent {} all here
  rw [List.nil_append] at same
  cases text with
  | nil =>
      have within : indent = 0 ∨ 0 + k ≤ indent := by omega
      obtain ⟨s₂, same', there⟩ := emptyLines?_spaces { breaks } k within behind
      rw [Nat.zero_add] at there
      have stop := emptyLines?_stop indent { breaks } there
        starts.solid.2 (.inl starts.solid.1)
      exact ⟨s₂, _, by rw [same, same', stop], there⟩
  | cons c text =>
      rw [ScalarText.indentLines_fresh indent (inLine c rfl), List.append_assoc] at behind
      have within : indent = 0 ∨ 0 + indent ≤ indent := by omega
      obtain ⟨s₂, same', there⟩ := emptyLines?_spaces { breaks } indent within behind
      rw [Nat.zero_add] at there
      have first : (ScalarText.indentLines indent false (c :: text) ++
          (List.replicate k ' ' ++ rest)).head? = some c := by
        rw [ScalarText.indentLines, inLine c rfl]
        rfl
      have stop := emptyLines?_stop indent { breaks } there
        (by rw [first]; exact inLine c rfl) (.inr ⟨Nat.ne_zero_of_lt leaves, Nat.le_refl _⟩)
      exact ⟨s₂, _, by rw [same, same', stop], there⟩

/-- All that has been read of the text. -/
def Content.whole (content : Content) : List Char :=
  content.text ++ content.lastBreak ++ content.emptyBreaks

/-- The last line that has been read has ended. -/
def Content.Ended (content : Content) : Prop :=
  ∃ c, content.lastBreak = [c] ∧ isBreak c = true ∧ ∀ d ∈ content.emptyBreaks, isBreak d = true

theorem lines?_lined (content : Content) (lined : ScalarText.Lined text)
    (noEnd : ∀ c ∈ text, c ≠ endMark) (starts : StartsWord rest) (leaves : k < indent)
    {fuel : Nat} (enough : text.length < fuel) (here : AtLine indent k rest s text) :
    ∃ content' s', lines? true indent fuel content s = some (content', s') ∧ s'.At k rest ∧
      content'.whole = content.whole ++ text ∧ (content.Ended ∨ text ≠ [] → content'.Ended) := by
  induction lined generalizing s fuel content with
  | nil =>
      obtain ⟨fuel, rfl⟩ := Nat.exists_eq_add_of_lt enough
      have here : s.At k rest := here
      refine ⟨content, s, ?_, here, (List.append_nil _).symm, fun ended => ?_⟩
      · have other : k ≠ indent := Nat.ne_of_lt leaves
        rw [lines?, here.column_eq, decide_eq_true other]
        rfl
      · exact ended.resolve_right fun some => some rfl
  | @cons line ends after c some inLine first others more ih =>
      obtain ⟨fuel, rfl⟩ := Nat.exists_eq_add_one_of_ne_zero (Nat.ne_zero_of_lt enough)
      have left : after.length < fuel := by
        simp only [List.length_append, List.length_cons] at enough
        omega
      rw [List.forall_mem_append, List.forall_mem_cons, List.forall_mem_append] at noEnd
      obtain ⟨noEndLine, -, -, noEndAfter⟩ := noEnd
      have here : s.At indent (line ++ c :: (ends ++
          (ScalarText.indentLines indent true after ++ (List.replicate k ' ' ++ rest)))) := by
        cases line with
        | nil => exact absurd rfl some
        | cons d line =>
            have here : s.At indent (ScalarText.indentLines indent false
              (d :: line ++ c :: (ends ++ after)) ++ (List.replicate k ' ' ++ rest)) := here
            rw [ScalarText.indentLines_line indent inLine first,
              ScalarText.indentLines_append_breaks indent others] at here
            simpa using here
      have peek : s.peek ≠ endMark := by
        rw [here.peek_eq]
        cases line with
        | nil => exact absurd rfl some
        | cons d line => exact noEndLine d List.mem_cons_self
      have taken : ∀ d ∈ line, (!endsLine d) = true ∧ isBreak d = false := by
        intro d member
        simp [endsLine, inLine d member, noEndLine d member]
      obtain ⟨s₁, span, behind⟩ := here.span_eq taken (by simp [endsLine, first])
      obtain ⟨p, s₂, rfl, rfl, -, below⟩ := behind.nextLine first
      obtain ⟨s₃, deepest, empty, there⟩ := emptyLines?_lined others more.head starts leaves below
      obtain ⟨content', s', read, behind', whole, ended⟩ :=
        ih ⟨content.whole ++ line, [p.char], ends, isBlank s.peek⟩ noEndAfter left there
      refine ⟨content', s', ?_, behind', ?_, fun _ => ended (.inl ⟨p.char, rfl, first, others⟩)⟩
      · have goesOn : (decide (s.column ≠ indent) || decide (s.peek = endMark)) = false := by
          rw [decide_eq_false peek, decide_eq_false (not_not_intro here.column_eq)]
          rfl
        have joined : ∀ next, content.joined true next = content.whole := by
          intro next
          simp [Content.joined, Content.whole]
        rw [lines?, goesOn]
        simp only [Bool.false_eq_true, ↓reduceIte, span, joined, Source.peek, first,
          List.length_singleton, List.drop_succ_cons, List.drop_zero, empty]
        exact read
      · rw [whole]
        simp [Content.whole]

/-! ## Headers -/

def signChars : Chomping → List Char
  | .strip => ['-']
  | .clip => []
  | .keep => ['+']

theorem header?_eq (given : Bool) (chomping : Chomping)
    (here : s.At column ((if given then ['2'] else []) ++ signChars chomping ++ '\n' :: rest)) :
    ∃ s' column', header? s = some (⟨chomping, if given then some 2 else none⟩, s') ∧
      s'.At column' ('\n' :: rest) := by
  obtain ⟨line, index, rfl⟩ := here
  cases given <;> cases chomping <;> exact ⟨_, _, rfl, _, _, rfl⟩

/-- What becomes of the line ends at the end of a text so that just those of the text are kept. -/
def chompingOf (text : List Char) : Chomping :=
  match text.reverse with
  | last :: [] => if isBreak last then .keep else .strip
  | last :: beforeLast :: _ =>
      if !isBreak last then .strip else if isBreak beforeLast then .keep else .clip
  | [] => .strip

theorem literalHeader_eq (text : List Char) : ScalarText.literalHeader text =
    '|' :: ((if text.head?.any ScalarText.isSpaceOrBreak then ['2'] else []) ++
      signChars (chompingOf text)) := by
  rw [ScalarText.literalHeader, chompingOf]
  cases text.reverse with
  | nil => rfl
  | cons last before =>
      cases before with
      | nil => dsimp only; cases isBreak last <;> rfl
      | cons beforeLast before =>
          dsimp only
          cases isBreak last <;> cases isBreak beforeLast <;> rfl

/-- The line end behind a text that does not end with one. -/
def lineEnd (text : List Char) : List Char := if text.getLast?.any isBreak then [] else ['\n']

theorem literal_eq (indent : Nat) (text : List Char) : ScalarText.literal indent text =
    ScalarText.literalHeader text ++
      '\n' :: ScalarText.indentLines indent true (text ++ lineEnd text) := by
  have behind : ∀ fresh, ScalarText.indentLines indent fresh (text ++ lineEnd text) =
      ScalarText.indentLines indent fresh text ++ lineEnd text := by
    intro fresh
    generalize shape : lineEnd text = ending
    have kinds : ending = [] ∨ ending = ['\n'] := by
      rw [← shape, lineEnd]
      split
      · exact .inl rfl
      · exact .inr rfl
    clear shape
    induction text generalizing fresh with
    | nil => rcases kinds with rfl | rfl <;> rfl
    | cons c text ih =>
        rw [List.cons_append, ScalarText.indentLines, ScalarText.indentLines, ih, ih]
        split
        · rfl
        · split
          · rw [List.append_assoc]; rfl
          · rfl
  rw [ScalarText.literal, behind]
  simp [lineEnd]

/-! ## Chomping -/

/-- If just one line end stands at the end of all that has been read, it ends the last line. -/
theorem Content.Ended.unique {content : Content} (ended : content.Ended)
    (whole : content.whole = text ++ [c])
    (solid : ∀ d, text.getLast? = some d → isBreak d = false) :
    content.text = text ∧ content.lastBreak = [c] ∧ content.emptyBreaks = [] := by
  obtain ⟨d, last, first, others⟩ := ended
  rw [Content.whole, last] at whole
  rcases List.eq_nil_or_concat content.emptyBreaks with none | ⟨before, e, shape⟩
  · rw [none, List.append_nil] at whole
    obtain ⟨same, ends⟩ := List.append_inj' whole rfl
    exact ⟨same, last.trans ends, none⟩
  · rw [shape, List.concat_eq_append] at others whole
    rw [← List.append_assoc] at whole
    obtain ⟨same, -⟩ := List.append_inj' whole rfl
    rw [List.forall_mem_append] at others
    cases shape' : before.getLast? with
    | none =>
        have other := solid d (by rw [← same, List.getLast?_eq_none_iff.mp shape']; simp)
        cases first.symm.trans other
    | some f =>
        have other := solid f (by rw [← same, List.getLast?_append, shape']; rfl)
        cases (others.1 f (List.mem_of_getLast? shape')).symm.trans other

/-- The text of a scalar, told from the line end that its header drops. -/
theorem chomped_eq {content : Content} (whole : content.whole = text ++ lineEnd text)
    (nonempty : text ≠ []) (ended : (∃ c ∈ text, isBreak c = false) → content.Ended) :
    content.chomped (chompingOf text) = String.ofList text := by
  obtain ⟨before, last, rfl⟩ : ∃ before last, text = before ++ [last] :=
    ⟨_, _, (List.dropLast_concat_getLast nonempty).symm⟩
  have ending : lineEnd (before ++ [last]) = if isBreak last then [] else ['\n'] := by
    rw [lineEnd, List.getLast?_append]
    rfl
  have header : chompingOf (before ++ [last]) =
      if !isBreak last then .strip else if before.getLast?.all isBreak then .keep else .clip := by
    rw [chompingOf, List.reverse_append, List.reverse_singleton, List.singleton_append,
      List.getLast?_eq_head?_reverse]
    cases before.reverse with
    | nil => dsimp only; cases isBreak last <;> rfl
    | cons beforeLast others => dsimp only; cases isBreak last <;> rfl
  rw [ending] at whole
  rw [header]
  cases breaks : isBreak last with
  | false =>
      rw [breaks] at whole
      have known := (ended ⟨last, by simp, breaks⟩).unique whole (by simp [breaks])
      simp [Content.chomped, known.1]
  | true =>
      rw [breaks, if_pos rfl, List.append_nil] at whole
      cases more : before.getLast?.all isBreak with
      | true => simp [Content.chomped, ← whole, Content.whole]
      | false =>
          obtain ⟨beforeLast, shape, solid⟩ :
              ∃ c, before.getLast? = some c ∧ isBreak c = false := by
            cases shape : before.getLast? with
            | none => rw [shape] at more; cases more
            | some c => rw [shape] at more; exact ⟨c, rfl, more⟩
          have member : beforeLast ∈ before ++ [last] :=
            List.mem_append_left _ (List.mem_of_getLast? shape)
          have known := (ended ⟨beforeLast, member, solid⟩).unique whole (by
            intro d same
            rw [shape] at same
            cases same
            exact solid)
          simp [Content.chomped, known.1, known.2.1]

/-! ## Literal scalars -/

/-- The first line shows how far the lines are indented if it begins with a word. -/
theorem emptyLines?_word (solid : endsWord c = false)
    (here : s.At 0 (ScalarText.indentLines indent true (c :: text) ++
      (List.replicate k ' ' ++ rest))) :
    ∃ s', emptyLines? 0 {} s = some (⟨[], indent⟩, s') ∧ AtLine indent k rest s' (c :: text) := by
  simp only [endsWord, endsLine, Bool.or_eq_false_iff] at solid
  rw [ScalarText.indentLines_fresh indent solid.2.1, List.append_assoc] at here
  obtain ⟨s', same, there⟩ := emptyLines?_spaces {} indent (.inl rfl) here
  rw [Nat.zero_add] at there
  have first : (ScalarText.indentLines indent false (c :: text) ++
      (List.replicate k ' ' ++ rest)).head? = some c := by
    rw [ScalarText.indentLines, solid.2.1]
    rfl
  have stop := emptyLines?_stop 0 {} there
    (by rw [first]; exact solid.2.1) (.inl (by rw [first]; exact solid.1))
  refine ⟨s', ?_, there⟩
  rw [same, stop, Nat.max_eq_right (Nat.zero_le indent)]

theorem lines?_text (lead : List Char) (lined : ScalarText.Lined text)
    (noEnd : ∀ c ∈ text, c ≠ endMark) (starts : StartsWord rest) (leaves : k < indent)
    {whole : List Char} (same : lead ++ text = whole ++ lineEnd whole) (nonempty : whole ≠ [])
    (allBreaks : ∀ c ∈ lead, isBreak c = true) (here : AtLine indent k rest s text) :
    ∃ content s', lines? true indent (s.length + 1) { emptyBreaks := lead } s = some (content, s') ∧
      s'.At k rest ∧ content.chomped (chompingOf whole) = String.ofList whole := by
  have enough : text.length < s.length + 1 := by
    cases text with
    | nil => exact Nat.succ_pos _
    | cons c text =>
        have here : s.At indent (ScalarText.indentLines indent false (c :: text) ++
          (List.replicate k ' ' ++ rest)) := here
        have longer := ScalarText.length_le_indentLines indent false (c :: text)
        rw [here.length_eq, List.length_append]
        omega
  obtain ⟨content, s', read, there, all, ended⟩ :=
    lines?_lined { emptyBreaks := lead } lined noEnd starts leaves enough here
  refine ⟨content, s', read, there, chomped_eq ?_ nonempty ?_⟩
  · rw [all, ← same]
    rfl
  · rintro ⟨c, member, solid⟩
    refine ended (.inr ?_)
    rintro rfl
    rw [List.append_nil] at same
    have ends := allBreaks c (by rw [same]; exact List.mem_append_left _ member)
    cases solid.symm.trans ends

theorem ends_lineEnd (c : Char) (last : (text ++ lineEnd text).getLast? = some c) :
    isBreak c = true := by
  rw [lineEnd] at last
  split at last
  · next ends =>
      rw [List.append_nil] at last
      rw [last] at ends
      exact ends
  · rw [List.getLast?_append] at last
    cases last
    rfl

/-- A text with line feeds is read back from a literal scalar in a block. -/
theorem read?_literal (allowed : ScalarText.literalAllowed text = true) (positive : 0 < margin) :
    ∃ inside, ScalarText.literal (margin + 1) text = '|' :: inside ∧
      ∀ ⦃column : Nat⦄ ⦃s : Source⦄ ⦃rest : List Char⦄, StartsWord rest → k < margin →
        s.At column (inside ++ (List.replicate k ' ' ++ rest)) →
        ∃ s', read? true margin s = some (String.ofList text, s') ∧ s'.At k rest := by
  simp only [ScalarText.literalAllowed, ScalarText.needsEscapes, Bool.and_eq_true,
    Bool.not_eq_true', Bool.or_eq_false_iff, List.any_eq_false] at allowed
  obtain ⟨⟨some, printable, -⟩, -⟩ := allowed
  have nonempty : text ≠ [] := List.isEmpty_eq_false_iff.mp some
  have noEnd : ∀ c ∈ text ++ lineEnd text, c ≠ endMark := by
    refine List.forall_mem_append.mpr ⟨fun c member => ?_, fun c member => ?_⟩
    · exact ScalarText.ne_endMark (by simpa using printable c member)
    · rw [lineEnd] at member
      split at member
      · cases member
      · rw [List.mem_singleton.mp member]
        decide
  rw [literal_eq, literalHeader_eq, List.cons_append]
  refine ⟨_, rfl, fun column s rest starts leaves here => ?_⟩
  rw [List.append_assoc, List.cons_append] at here
  obtain ⟨s₁, column', header, behind⟩ := header?_eq _ _ here
  obtain ⟨s₂, finish, below⟩ := behind.finishLine?_eq
  generalize given : text.head?.any ScalarText.isSpaceOrBreak = digit at header
  cases digit with
  | true =>
      have whole := List.takeWhile_append_dropWhile (p := isBreak) (l := text ++ lineEnd text)
      have lead : ∀ c ∈ (text ++ lineEnd text).takeWhile isBreak, isBreak c = true :=
        fun c => List.mem_takeWhile_imp
      have lined : ScalarText.Lined ((text ++ lineEnd text).dropWhile isBreak) := by
        refine ScalarText.lined_of_ends (fun c => ScalarText.head?_dropWhile) fun c last => ?_
        refine @ends_lineEnd text c ?_
        rw [← whole, List.getLast?_append, last]
        rfl
      generalize (text ++ lineEnd text).takeWhile isBreak = first at whole lead
      generalize (text ++ lineEnd text).dropWhile isBreak = others at whole lined
      rw [← whole, ScalarText.indentLines_append_breaks (margin + 1) lead,
        List.append_assoc] at below
      obtain ⟨s₃, deepest, empty, there⟩ :=
        emptyLines?_lined lead lined.head starts (Nat.lt_succ_of_lt leaves) below
      rw [← whole] at noEnd
      obtain ⟨content, s₄, read, left, chomped⟩ := lines?_text first lined
        (List.forall_mem_append.mp noEnd).2 starts (Nat.lt_succ_of_lt leaves) whole nonempty lead
        there
      refine ⟨s₄, ?_, left⟩
      have depth : margin - 1 + 2 = margin + 1 := by omega
      simp only [read?, header, finish, Option.bind_eq_bind, Option.bind_some, ↓reduceIte, depth,
        empty, Nat.succ_ne_zero, read, chomped]
      rfl
  | false =>
      cases text with
      | nil => exact absurd rfl nonempty
      | cons c text =>
          have first : ScalarText.isSpaceOrBreak c = false := given
          simp only [ScalarText.isSpaceOrBreak, Bool.or_eq_false_iff,
            decide_eq_false_iff_not] at first
          have solid : endsWord c = false := ScalarText.endsWord_eq_false
            (by simpa using printable c List.mem_cons_self) first.2 first.1
          have lined : ScalarText.Lined (c :: text ++ lineEnd (c :: text)) := by
            refine ScalarText.lined_of_ends (fun d head => ?_) fun d => ends_lineEnd d
            cases head
            exact first.2
          obtain ⟨s₃, empty, there⟩ := emptyLines?_word solid below
          obtain ⟨content, s₄, read, left, chomped⟩ := lines?_text [] lined noEnd starts
            (Nat.lt_succ_of_lt leaves) rfl nonempty (List.forall_mem_nil _) there
          refine ⟨s₄, ?_, left⟩
          have depth : max (max (margin + 1) margin) 1 = margin + 1 := by omega
          simp only [read?, header, finish, Option.bind_eq_bind, Option.bind_some, ↓reduceIte,
            depth, empty, read, chomped, Bool.false_eq_true]
          rfl

end BlockScalar

end CircuitDag.Yaml
