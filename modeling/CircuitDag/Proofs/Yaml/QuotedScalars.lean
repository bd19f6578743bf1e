import CircuitDag.Proofs.Yaml.Places
import CircuitDag.Yaml.QuotedScalar
import Mathlib.Algebra.Group.Nat.Defs

/-!
# Reading quoted scalars

A text is read back from its quotes. Every character is spelled on its own, but for the line ends
between single quotes, which start a line that has to be indented.
-/

set_option autoImplicit false

namespace CircuitDag.Yaml

open Source (At)

variable {column indent : Nat} {c : Char} {text rest acc : List Char} {s : Source}

namespace ScalarText

/-- The inside of quotes. Characters are spelled in some way or, where they break lines, stand for
themselves. -/
def quotedChars (spell : Char → List Char) (breaks : Char → Bool) (indent : Nat) :
    (fresh : Bool) → List Char → List Char
  | fresh, [] => if fresh then List.replicate indent ' ' else []
  | fresh, c :: rest =>
      if breaks c then c :: quotedChars spell breaks indent true rest
      else (if fresh then List.replicate indent ' ' else []) ++ spell c ++
        quotedChars spell breaks indent false rest

def doubledQuote (c : Char) : List Char := if c = '\'' then ['\'', '\''] else [c]

def escaped (c : Char) : List Char :=
  if !isPrintable c || isBreak c || c = '"' || c = '\\' then '\\' :: escape c else [c]

theorem doubleQuoted_eq (indent : Nat) (text : List Char) : doubleQuoted text =
    '"' :: (quotedChars escaped (fun _ => false) indent false text ++ ['"']) := by
  have inside : quotedChars escaped (fun _ => false) indent false text = text.flatMap escaped := by
    induction text with
    | nil => rfl
    | cons c text ih => rw [List.flatMap_cons, ← ih]; rfl
  rw [inside]
  rfl

/-- Text whose lines are indented, spelled between single quotes. -/
theorem quotedChars_doubledQuote (indent : Nat) (fresh : Bool) (text : List Char) :
    quotedChars doubledQuote isBreak indent fresh text =
      indentLines indent fresh (text.flatMap doubledQuote) ++
        if (text.getLast?.map isBreak).getD fresh then List.replicate indent ' ' else [] := by
  induction text generalizing fresh with
  | nil => rfl
  | cons c text ih =>
      have last : ((c :: text).getLast?.map isBreak).getD fresh =
          (text.getLast?.map isBreak).getD (isBreak c) := by
        rw [List.getLast?_cons]
        cases text.getLast? <;> rfl
      rw [quotedChars, ih, ih, last, List.flatMap_cons, doubledQuote]
      by_cases quote : c = '\''
      · subst quote
        cases fresh <;> simp [indentLines, isBreak]
      · rw [if_neg quote, List.singleton_append, indentLines]
        cases isBreak c <;> cases fresh <;> simp

theorem singleQuoted_eq (indent : Nat) (text : List Char) : singleQuoted indent text =
    '\'' :: (quotedChars doubledQuote isBreak indent false text ++ ['\'']) := by
  have closing : (text.getLast?.map isBreak).getD false = text.getLast?.any isBreak := by
    cases text.getLast? <;> rfl
  rw [quotedChars_doubledQuote, closing]
  rfl

end ScalarText

/-! ## Gaps -/

/-- A gap that has been read in part: some spaces, or line ends of which the first is no line
feed. -/
inductive Gap.Pending (breaks : Char → Bool) : Gap → Prop
  | spaces (n : Nat) : Pending breaks { blanks := List.replicate (n + 1) ' ' }
  | lines {c : Char} {cs : List Char} (ends : breaks c = true) (other : c ≠ '\n')
      (more : ∀ d ∈ cs, breaks d = true) :
      Pending breaks { folded := true, first := [c], others := cs }

namespace Gap.Pending

variable {breaks : Char → Bool} {gap : Gap}

theorem start_lines (ends : breaks c = true) (other : c ≠ '\n') :
    Pending breaks (Gap.addBreak {} c) ∧ (Gap.addBreak {} c).text = [c] :=
  ⟨.lines ends other (List.forall_mem_nil _), by simp [Gap.text, Gap.addBreak, other]⟩

theorem addBlank (pending : Pending breaks gap) (inLine : gap.folded = false) :
    Pending breaks (gap.addBlank ' ') ∧ (gap.addBlank ' ').folded = false ∧
      (gap.addBlank ' ').text = gap.text ++ [' '] := by
  cases pending with
  | spaces n =>
      refine ⟨?_, rfl, rfl⟩
      have more : List.replicate (n + 1) ' ' ++ [' '] = List.replicate (n + 1 + 1) ' ' :=
        List.replicate_succ'.symm
      have all : Pending breaks _ := .spaces (n + 1)
      rwa [← more] at all
  | lines => cases inLine

theorem addBreak (pending : Pending breaks gap) (folded : gap.folded = true)
    (ends : breaks c = true) :
    Pending breaks (gap.addBreak c) ∧ (gap.addBreak c).folded = true ∧
      (gap.addBreak c).text = gap.text ++ [c] := by
  cases pending with
  | spaces n => cases folded
  | @lines d ds endsFirst other more =>
      refine ⟨.lines endsFirst other (List.forall_mem_append.mpr ⟨more, by simpa using ends⟩),
        rfl, ?_⟩
      simp [Gap.text, Gap.addBreak, other]

theorem text_eq (pending : Pending breaks gap) :
    ∃ before last, gap.text = before ++ [last] ∧
      if gap.folded then breaks last = true else last = ' ' := by
  cases pending with
  | spaces n => exact ⟨List.replicate n ' ', ' ', List.replicate_succ', rfl⟩
  | @lines d ds endsFirst other more =>
      have shape := List.dropLast_concat_getLast (List.cons_ne_nil d ds)
      refine ⟨(d :: ds).dropLast, (d :: ds).getLast (List.cons_ne_nil d ds), ?_, ?_⟩
      · simp [Gap.text, other, shape]
      · simp only [↓reduceIte]
        have all : ∀ e ∈ d :: ds, breaks e = true := List.forall_mem_cons.mpr ⟨endsFirst, more⟩
        exact all _ (List.getLast_mem _)

end Gap.Pending

theorem Gap.read_word {gap : Gap} (here : s.At column (c :: rest)) (solid : endsWord c = false) :
    Gap.read gap s = (gap, s) := by
  obtain ⟨p, s, rfl, rfl, -, -⟩ := here.cons
  simp only [endsWord, endsLine, Bool.or_eq_false_iff] at solid
  rw [Gap.read, solid.1, solid.2.1]
  rfl

/-- Spaces at the start of a line are dropped. -/
theorem Gap.read_indentation {gap : Gap} (folded : gap.folded = true) (n : Nat)
    (here : s.At column (List.replicate n ' ' ++ rest)) :
    ∃ s', Gap.read gap s = Gap.read gap s' ∧ s'.At (column + n) rest := by
  induction n generalizing s column with
  | zero => exact ⟨s, rfl, here⟩
  | succ n ih =>
      obtain ⟨p, s, rfl, char, -, behind⟩ := here.next (by decide)
      obtain ⟨s', read, there⟩ := ih behind
      refine ⟨s', ?_, by rwa [Nat.add_right_comm] at there⟩
      rw [Gap.read, char, Gap.addBlank, if_pos folded, ← read]
      rfl

/-! ## The text between the quotes -/

namespace QuotedScalar

/-- How characters are spelled between quotes, such that they are read back one by one. -/
structure Spelling (single : Bool) where
  quote : Char
  endsWord_quote : endsWord quote = false
  spell : Char → List Char
  breaks : Char → Bool
  /-- The characters that can be spelled. -/
  fits : Char → Prop
  space : spell ' ' = [' ']
  breaks_space : breaks ' ' = false
  isBreak_of_breaks : ∀ c, fits c → breaks c = true → isBreak c = true ∧ c ≠ '\n'
  /-- The first character of the spelling of any other character. -/
  solid : ∀ c, fits c → breaks c = false → c ≠ ' ' →
    ∃ d rest, spell c = d :: rest ∧ endsWord d = false
  char : ∀ (acc : List Char) ⦃c fuel column rest s⦄, fits c → breaks c = false → c ≠ ' ' →
    0 < column →
    s.At column (spell c ++ rest) → ∃ s' column', 0 < column' ∧ s'.At column' rest ∧
      content? single (fuel + 1) acc s = content? single fuel (c :: acc) s'
  close : ∀ (acc : List Char) ⦃fuel column rest s⦄, 0 < column → rest.head? ≠ some quote →
    s.At column (quote :: rest) → ∃ s', s'.At (column + 1) rest ∧
      content? single (fuel + 1) acc s = some (String.ofList acc.reverse, s')

/-- A text that can be spelled: no space stands beside a character that breaks lines. -/
structure Spelling.Fits {single : Bool} (spelling : Spelling single) (text : List Char) : Prop where
  fits : ∀ c ∈ text, spelling.fits c
  before : ScalarText.hasPair (· = ' ') spelling.breaks text = false
  behind : ScalarText.hasPair spelling.breaks (· = ' ') text = false

namespace Spelling

variable {single : Bool} {spelling : Spelling single} {indent : Nat}

theorem Fits.append_right {before : List Char} (fits : spelling.Fits (before ++ text)) :
    spelling.Fits text where
  fits := (List.forall_mem_append.mp fits.fits).2
  before := ScalarText.hasPair_append_right fits.before
  behind := ScalarText.hasPair_append_right fits.behind

/-- What is left of a text, as it is spelled with its closing quote. -/
def inside (spelling : Spelling single) (indent : Nat) (fresh : Bool) (text rest : List Char) :
    List Char :=
  ScalarText.quotedChars spelling.spell spelling.breaks indent fresh text ++ spelling.quote :: rest

theorem inside_word {fresh : Bool} (word : spelling.breaks c = false) :
    spelling.inside indent fresh (c :: text) rest =
      (if fresh then List.replicate indent ' ' else []) ++
        (spelling.spell c ++ spelling.inside indent false text rest) := by
  rw [inside, ScalarText.quotedChars, word]
  simp only [Bool.false_eq_true, ↓reduceIte, List.append_assoc]
  rfl

theorem inside_break {fresh : Bool} (ends : spelling.breaks c = true) :
    spelling.inside indent fresh (c :: text) rest = c :: spelling.inside indent true text rest := by
  rw [inside, ScalarText.quotedChars, if_pos ends]
  rfl

/-- Reading behind a gap. -/
def resume (single : Bool) (fuel : Nat) (acc : List Char) (gap : Gap) (s : Source) :
    Option (String × Source) :=
  content? single fuel ((Gap.read gap s).1.text.reverse ++ acc) (Gap.read gap s).2

/-- The whole text has been read, and the rest is left. -/
def Ends (acc text rest : List Char) (result? : Option (String × Source)) : Prop :=
  ∃ s column, result? = some (String.ofList (acc.reverse ++ text), s) ∧ s.At column rest

/-- A character that stands for itself is read into the gap. -/
theorem content?_gap {fuel : Nat} {p : Place} (here : At (p :: s) column (c :: text))
    (indented : 0 < column) (gap : isBlank c = true ∨ isBreak c = true) :
    content? single (fuel + 1) acc (p :: s) = resume single fuel acc {} (p :: s) := by
  obtain ⟨q, s', shape, char, -, -⟩ := here.cons
  obtain ⟨rfl, rfl⟩ := List.cons.inj shape
  have marker := here.not_startsWithMarker indented
  have other : p.char ≠ endMark := by
    rintro same
    rw [← char, same] at gap
    revert gap
    decide
  rw [content?, Source.atDocumentMarker, marker, marker, decide_eq_false other, char]
  have either : (isBlank c || isBreak c) = true := by simpa using gap
  simp only [either, ↓reduceIte]
  rfl

theorem resume_gap {fuel : Nat} {p : Place} {gap : Gap} :
    (isBlank p.char = true →
      resume single fuel acc gap (p :: s) = resume single fuel acc (gap.addBlank p.char) s) ∧
    (isBlank p.char = false → isBreak p.char = true →
      resume single fuel acc gap (p :: s) = resume single fuel acc (gap.addBreak p.char) s) := by
  refine ⟨fun blank => ?_, fun solid ends => ?_⟩
  · simp only [resume, Gap.read, blank, ↓reduceIte]
  · simp only [resume, Gap.read, solid, ends, Bool.false_eq_true, ↓reduceIte]

/-- Behind a gap, a word goes on where its line has been indented. -/
theorem resume_word (single : Bool) (fuel : Nat) (acc : List Char) {gap : Gap} {d : Char}
    (solid : endsWord d = false) (positive : 0 < indent) (inLine : gap.folded = false → 0 < column)
    (here : s.At column ((if gap.folded then List.replicate indent ' ' else []) ++ d :: rest)) :
    ∃ s' column', 0 < column' ∧ s'.At column' (d :: rest) ∧
      resume single fuel acc gap s = content? single fuel (gap.text.reverse ++ acc) s' := by
  cases folded : gap.folded with
  | false =>
      rw [folded] at here
      exact ⟨s, column, inLine folded, here, by rw [resume, Gap.read_word here solid]⟩
  | true =>
      rw [folded] at here
      obtain ⟨s', read, there⟩ := Gap.read_indentation folded indent here
      refine ⟨s', column + indent, Nat.lt_of_lt_of_le positive (Nat.le_add_left indent column),
        there, ?_⟩
      rw [resume, read, Gap.read_word there solid]

/-- Reading goes on to the closing quote from any character. -/
def ReadsFrom (spelling : Spelling single) (indent : Nat) (text rest : List Char) : Prop :=
  ∀ ⦃fuel column : Nat⦄ (acc : List Char) ⦃s : Source⦄, spelling.Fits text → 0 < column →
    s.At column (spelling.inside indent false text rest) → text.length < fuel →
    Ends acc text rest (content? single fuel acc s)

/-- Reading goes on to the closing quote from within any gap. -/
def ReadsWithin (spelling : Spelling single) (indent : Nat) (text rest : List Char) : Prop :=
  ∀ ⦃fuel column : Nat⦄ (acc : List Char) ⦃s : Source⦄ ⦃gap : Gap⦄,
    Gap.Pending spelling.breaks gap → spelling.Fits (gap.text ++ text) →
    (gap.folded = false → 0 < column) → s.At column (spelling.inside indent gap.folded text rest) →
    text.length < fuel → Ends acc (gap.text ++ text) rest (resume single fuel acc gap s)

theorem readsFrom_nil (last : rest.head? ≠ some spelling.quote) :
    spelling.ReadsFrom indent [] rest := by
  intro fuel column acc s fits indented here enough
  obtain ⟨fuel, rfl⟩ := Nat.exists_eq_add_of_lt enough
  obtain ⟨s', there, read⟩ := spelling.close acc indented last here
  exact ⟨s', _, by rw [read, List.append_nil], there⟩

/-- A word behind a gap is read like any other. -/
theorem readsWithin_of_word (positive : 0 < indent) (from' : spelling.ReadsFrom indent text rest)
    {fuel : Nat} {gap : Gap} {d : Char} {more : List Char} (solid : endsWord d = false)
    (shape : spelling.inside indent false text rest = d :: more)
    (fits : spelling.Fits (gap.text ++ text)) (inLine : gap.folded = false → 0 < column)
    (here : s.At column ((if gap.folded then List.replicate indent ' ' else []) ++ d :: more))
    (enough : text.length < fuel) :
    Ends acc (gap.text ++ text) rest (resume single fuel acc gap s) := by
  obtain ⟨s', column', indented, there, read⟩ := resume_word single fuel acc solid positive
    inLine here
  rw [← shape] at there
  obtain ⟨s'', column'', result, behind⟩ :=
    from' (gap.text.reverse ++ acc) fits.append_right indented there enough
  refine ⟨s'', column'', ?_, behind⟩
  rw [read, result]
  simp

theorem readsFrom_cons (from' : spelling.ReadsFrom indent text rest)
    (within : spelling.ReadsWithin indent text rest) :
    spelling.ReadsFrom indent (c :: text) rest := by
  intro fuel column acc s fits indented here enough
  obtain ⟨fuel, rfl⟩ := Nat.exists_eq_add_of_lt enough
  have left : text.length < (c :: text).length + fuel := by rw [List.length_cons]; omega
  have known := fits.fits c List.mem_cons_self
  cases breaks : spelling.breaks c with
  | true =>
      obtain ⟨ends, other⟩ := spelling.isBreak_of_breaks c known breaks
      rw [inside_break breaks] at here
      obtain ⟨pending, alone⟩ := Gap.Pending.start_lines breaks other
      obtain ⟨p, s, rfl, rfl, -, behind⟩ := here.nextLine ends
      rw [content?_gap here indented (.inr ends), resume_gap.2 (not_isBlank_of_isBreak ends) ends]
      have read := within acc pending (by rwa [alone]) (fun inLine => by cases inLine)
        behind left
      rwa [alone] at read
  | false =>
      rw [inside_word breaks] at here
      by_cases space : c = ' '
      · subst space
        rw [spelling.space] at here
        obtain ⟨p, s, rfl, char, -, behind⟩ := here.next (by decide)
        have blank : isBlank p.char = true := by rw [char]; rfl
        rw [content?_gap here indented (.inl rfl), resume_gap.1 blank, char]
        exact within acc (.spaces 0) fits (fun _ => Nat.succ_pos column) behind left
      · obtain ⟨s', column', indented', there, read⟩ :=
          spelling.char acc known breaks space indented here
        have fits' : spelling.Fits ([c] ++ text) := fits
        obtain ⟨s'', column'', result, behind⟩ :=
          from' (c :: acc) fits'.append_right indented' there left
        refine ⟨s'', column'', ?_, behind⟩
        rw [read, result]
        simp

theorem readsWithin_cons (positive : 0 < indent)
    (from' : spelling.ReadsFrom indent (c :: text) rest)
    (within : spelling.ReadsWithin indent text rest) :
    spelling.ReadsWithin indent (c :: text) rest := by
  intro fuel column acc s gap pending fits inLine here enough
  have left : text.length < fuel := Nat.lt_of_succ_lt enough
  have known := fits.fits c (by simp)
  obtain ⟨before, last, shape, kind⟩ := pending.text_eq
  have apart := fits
  rw [shape, List.append_assoc, List.singleton_append] at apart
  have longer : gap.text ++ c :: text = gap.text ++ [c] ++ text := by
    rw [List.append_assoc, List.singleton_append]
  cases breaks : spelling.breaks c with
  | true =>
      obtain ⟨ends, other⟩ := spelling.isBreak_of_breaks c known breaks
      have folded : gap.folded = true := by
        by_contra inLine
        rw [if_neg inLine] at kind
        have clash := ScalarText.of_hasPair_eq_false apart.before
        simp [kind, breaks] at clash
      obtain ⟨pending', folded', text'⟩ := pending.addBreak folded breaks
      rw [inside_break breaks] at here
      obtain ⟨p, s, rfl, rfl, -, behind⟩ := here.nextLine ends
      rw [resume_gap.2 (not_isBlank_of_isBreak ends) ends, longer, ← text']
      exact within acc pending' (by rwa [text', ← longer])
        (fun inLine => by rw [folded'] at inLine; cases inLine)
        (by rwa [folded']) left
  | false =>
      by_cases space : c = ' '
      · subst space
        have inLine' : gap.folded = false := by
          by_contra folded
          rw [if_pos (Bool.of_not_eq_false folded)] at kind
          have clash := ScalarText.of_hasPair_eq_false apart.behind
          simp [kind] at clash
        obtain ⟨pending', folded', text'⟩ := pending.addBlank inLine'
        rw [inside_word breaks, inLine', spelling.space] at here
        obtain ⟨p, s, rfl, char, -, behind⟩ := here.next (by decide)
        have blank : isBlank p.char = true := by rw [char]; rfl
        rw [resume_gap.1 blank, char, longer, ← text']
        exact within acc pending' (by rwa [text', ← longer]) (fun _ => Nat.succ_pos column)
          (by rwa [folded']) left
      · obtain ⟨d, more, spelled, solid⟩ := spelling.solid c known breaks space
        have word : spelling.inside indent false (c :: text) rest =
            d :: (more ++ spelling.inside indent false text rest) := by
          rw [inside_word breaks, spelled]
          rfl
        rw [inside_word breaks, spelled] at here
        exact readsWithin_of_word positive from' solid word fits inLine here enough

theorem reads_inside (positive : 0 < indent) (last : rest.head? ≠ some spelling.quote)
    (text : List Char) :
    spelling.ReadsFrom indent text rest ∧ spelling.ReadsWithin indent text rest := by
  induction text with
  | nil =>
      refine ⟨readsFrom_nil last, ?_⟩
      intro fuel column acc s gap _ fits inLine here enough
      exact readsWithin_of_word positive (readsFrom_nil last) spelling.endsWord_quote rfl fits
        inLine here enough
  | cons c text ih =>
      have start := readsFrom_cons (c := c) ih.1 ih.2
      exact ⟨start, readsWithin_cons positive start ih.2⟩

theorem length_le_inside (indent : Nat) (fresh : Bool) (rest : List Char)
    (fits : ∀ c ∈ text, spelling.fits c) :
    text.length ≤ (spelling.inside indent fresh text rest).length := by
  induction text generalizing fresh with
  | nil => exact Nat.zero_le _
  | cons c text ih =>
      rw [List.forall_mem_cons] at fits
      cases breaks : spelling.breaks c with
      | true =>
          rw [inside_break breaks]
          exact Nat.succ_le_succ (ih _ fits.2)
      | false =>
          have some : 0 < (spelling.spell c).length := by
            by_cases space : c = ' '
            · rw [space, spelling.space]
              decide
            · obtain ⟨d, more, spelled, -⟩ := spelling.solid c fits.1 breaks space
              rw [spelled]
              exact Nat.succ_pos _
          have shorter := ih false fits.2
          rw [inside_word breaks, List.length_append, List.length_append, List.length_cons]
          omega

/-- A text is read back from its spelling with the closing quote. -/
theorem read?_inside (fits : spelling.Fits text) (positive : 0 < indent) (indented : 0 < column)
    (last : rest.head? ≠ some spelling.quote)
    (here : s.At column (spelling.inside indent false text rest)) :
    ∃ s' column', read? single s = some (String.ofList text, s') ∧ s'.At column' rest := by
  have enough : text.length < s.length + 1 := by
    have shorter := length_le_inside indent false rest fits.fits
    rw [here.length_eq]
    omega
  exact (reads_inside positive last text).1 [] fits indented here enough

end Spelling

/-! ## Single quotes -/

variable {fuel : Nat} {single : Bool}

/-- A character that is no gap is looked at by itself. -/
theorem content?_solid {p : Place} (here : At (p :: s) column rest) (indented : 0 < column)
    (solid : endsWord p.char = false) :
    (Source.atDocumentMarker (p :: s) || p.char = endMark) = false ∧
      (isBlank p.char || isBreak p.char) = false := by
  have marker := here.not_startsWithMarker indented
  simp only [endsWord, endsLine, Bool.or_eq_false_iff] at solid
  rw [Source.atDocumentMarker, marker, marker, solid.1, solid.2.1, solid.2.2]
  exact ⟨rfl, rfl⟩

/-! ## Single quotes -/

theorem solid_doubledQuote (printable : ScalarText.isPrintable c = true)
    (inLine : isBreak c = false)
    (other : c ≠ ' ') : ∃ d rest, ScalarText.doubledQuote c = d :: rest ∧ endsWord d = false := by
  rw [ScalarText.doubledQuote]
  split
  · exact ⟨_, _, rfl, by decide⟩
  · exact ⟨_, _, rfl, ScalarText.endsWord_eq_false printable inLine other⟩

theorem content?_doubledQuote (solid : endsWord c = false) (indented : 0 < column)
    (here : s.At column (ScalarText.doubledQuote c ++ rest)) :
    ∃ s' column', 0 < column' ∧ s'.At column' rest ∧
      content? true (fuel + 1) acc s = content? true fuel (c :: acc) s' := by
  rw [ScalarText.doubledQuote] at here
  by_cases quote : c = '\''
  · subst quote
    obtain ⟨p, s, rfl, char, -, behind⟩ := here.next (by decide)
    obtain ⟨marker, gap⟩ := content?_solid here indented (by rw [char]; decide)
    refine ⟨s.drop 1, _, Nat.succ_pos _, behind.drop_one (by decide), ?_⟩
    rw [content?, marker, gap, behind.peek_eq, char]
    rfl
  · rw [if_neg quote] at here
    have inLine : isBreak c = false := by
      simp only [endsWord, endsLine, Bool.or_eq_false_iff] at solid
      exact solid.2.1
    obtain ⟨p, s, rfl, rfl, -, behind⟩ := here.next inLine
    obtain ⟨marker, gap⟩ := content?_solid here indented solid
    refine ⟨s, _, Nat.succ_pos _, behind, ?_⟩
    rw [content?, marker, gap]
    simp [quote]

theorem content?_singleQuote (indented : 0 < column) (last : rest.head? ≠ some '\'')
    (here : s.At column ('\'' :: rest)) : ∃ s', s'.At (column + 1) rest ∧
      content? true (fuel + 1) acc s = some (String.ofList acc.reverse, s') := by
  obtain ⟨p, s, rfl, char, -, behind⟩ := here.next (by decide)
  obtain ⟨marker, gap⟩ := content?_solid here indented (by rw [char]; decide)
  have other : Source.peek s ≠ '\'' := by
    rw [behind.peek_eq]
    cases rest with
    | nil => decide
    | cons d rest => exact fun same => last (congrArg some same)
  refine ⟨s, behind, ?_⟩
  rw [content?, marker, gap, char]
  simp [other]

def singleQuotes : Spelling true where
  quote := '\''
  endsWord_quote := by decide
  spell := ScalarText.doubledQuote
  breaks := isBreak
  fits c := ScalarText.isPrintable c = true ∧ c ≠ '\n'
  space := rfl
  breaks_space := by decide
  isBreak_of_breaks _ fits ends := ⟨ends, fits.2⟩
  solid _ fits := solid_doubledQuote fits.1
  char _ _ _ _ _ _ fits inLine other :=
    content?_doubledQuote (ScalarText.endsWord_eq_false fits.1 inLine other)
  close _ _ _ _ _ := content?_singleQuote

theorem read?_singleQuoted {text : List Char} (allowed : ScalarText.singleAllowed text = true)
    (oneLine : ∀ c ∈ text, c ≠ '\n') (positive : 0 < indent) : ∃ inside,
      ScalarText.singleQuoted indent text = '\'' :: inside ∧
      ∀ ⦃column : Nat⦄ ⦃s : Source⦄ ⦃rest : List Char⦄, 0 < column → rest.head? ≠ some '\'' →
        s.At column (inside ++ rest) →
        ∃ s' column', read? true s = some (String.ofList text, s') ∧ s'.At column' rest := by
  simp only [ScalarText.singleAllowed, ScalarText.needsEscapes, ScalarText.losesSpace,
    Bool.and_eq_true, Bool.not_eq_true', Bool.or_eq_false_iff, List.any_eq_false] at allowed
  obtain ⟨⟨printable, before⟩, behind⟩ := allowed
  have fits : singleQuotes.Fits text :=
    { fits := fun c member => ⟨by simpa using printable c member, oneLine c member⟩
      before := before
      behind := behind }
  refine ⟨_, ScalarText.singleQuoted_eq indent text, fun column s rest indented last here => ?_⟩
  rw [List.append_assoc] at here
  exact Spelling.read?_inside fits positive indented last here

/-! ## Double quotes -/

theorem hexDigit?_toUpper_digitChar {n : Nat} (below : n < 16) :
    hexDigit? n.digitChar.toUpper = some n := by
  have all : ∀ n < 16, hexDigit? n.digitChar.toUpper = some n := by decide
  exact all n below

theorem isBreak_toUpper_digitChar {n : Nat} (below : n < 16) :
    isBreak n.digitChar.toUpper = false := by
  have all : ∀ n < 16, isBreak n.digitChar.toUpper = false := by decide
  exact all n below

theorem hexValue?_hexDigits (width : Nat) {n : Nat} (small : n < 16 ^ width) :
    hexValue? (ScalarText.hexDigits width n) = some n := by
  induction width generalizing n with
  | zero =>
      rw [Nat.lt_one_iff.mp small]
      rfl
  | succ width ih =>
      have shorter := ih (n := n / 16) (Nat.div_lt_of_lt_mul (by rwa [← Nat.pow_succ']))
      rw [hexValue?] at shorter
      rw [hexValue?, ScalarText.hexDigits, List.foldlM_append, shorter]
      simp only [Option.bind_eq_bind, Option.bind_some, List.foldlM_cons, List.foldlM_nil,
        hexDigit?_toUpper_digitChar (Nat.mod_lt n (by decide)), Option.map_some]
      exact congrArg some (Nat.div_add_mod n 16)

theorem length_hexDigits (width n : Nat) : (ScalarText.hexDigits width n).length = width := by
  induction width generalizing n with
  | zero => rfl
  | succ width ih => rw [ScalarText.hexDigits, List.length_append, ih, List.length_singleton]

theorem inLine_hexDigits (width n : Nat) :
    ∀ c ∈ ScalarText.hexDigits width n, isBreak c = false := by
  induction width generalizing n with
  | zero => exact List.forall_mem_nil _
  | succ width ih =>
      rw [ScalarText.hexDigits, List.forall_mem_append, List.forall_mem_singleton]
      exact ⟨ih _, isBreak_toUpper_digitChar (Nat.mod_lt n (by decide))⟩

theorem toNat_lt (c : Char) : c.toNat < 0x110000 := by
  have valid := c.valid
  simp only [UInt32.isValidChar, Nat.isValidChar] at valid
  simp only [Char.toNat]
  omega

theorem charOfCode?_toNat (c : Char) : charOfCode? c.toNat = some c := by
  have valid : c.toNat.isValidChar := c.valid
  have same := Char.ofNat_toNat c
  rw [Char.ofNat, dif_pos valid] at same
  rw [charOfCode?, dif_pos valid, same]

theorem escape?_hexDigits {mark : Char} {width : Nat} (known : escapeWidth? mark = some width)
    (inLine : isBreak mark = false) (small : c.toNat < 16 ^ width)
    (here : s.At column (mark :: ScalarText.hexDigits width c.toNat ++ rest)) :
    ∃ s' column', 0 < column' ∧ s'.At column' rest ∧ escape? s = some (c, s') := by
  rw [List.cons_append] at here
  obtain ⟨p, s, rfl, char, -, behind⟩ := here.next inLine
  obtain ⟨digits, there⟩ := behind.take_drop (inLine_hexDigits width c.toNat)
  rw [length_hexDigits] at digits there
  refine ⟨s.drop width, _, ?_, there, ?_⟩
  · omega
  · rw [escape?, char, known]
    simp only [digits, length_hexDigits, Nat.lt_irrefl, ↓reduceIte, hexValue?_hexDigits width small]
    simp [charOfCode?_toNat]

theorem escape?_short {mark : Char} (wide : escapeWidth? mark = none)
    (known : shortEscape? mark = some c) (inLine : isBreak mark = false)
    (here : s.At column (mark :: rest)) :
    ∃ s' column', 0 < column' ∧ s'.At column' rest ∧ escape? s = some (c, s') := by
  obtain ⟨p, s, rfl, char, -, behind⟩ := here.next inLine
  exact ⟨s, _, Nat.succ_pos column, behind, by rw [escape?, char, wide, known]; rfl⟩

theorem escape?_escape (here : s.At column (ScalarText.escape c ++ rest)) :
    ∃ s' column', 0 < column' ∧ s'.At column' rest ∧ escape? s = some (c, s') := by
  have named : ∀ {code : Nat}, c.toNat = code → c = Char.ofNat code := by
    rintro _ rfl
    exact (Char.ofNat_toNat c).symm
  rw [ScalarText.escape.eq_def] at here
  split at here
  case h_16 =>
    split at here
    · exact escape?_hexDigits rfl (by decide) (by omega) here
    · split at here
      · exact escape?_hexDigits rfl (by decide) (by omega) here
      · have valid := toNat_lt c
        exact escape?_hexDigits rfl (by decide) (by omega) here
  all_goals
    rename_i code
    exact escape?_short rfl (by rw [named code]; rfl) (by decide) here

theorem inLine_escape (c : Char) :
    ∃ d rest, ScalarText.escape c = d :: rest ∧ isBreak d = false := by
  rw [ScalarText.escape.eq_def]
  split
  case h_16 => split <;> [skip; split] <;> exact ⟨_, _, rfl, by decide⟩
  all_goals exact ⟨_, _, rfl, by decide⟩

theorem solid_escaped (other : c ≠ ' ') :
    ∃ d rest, ScalarText.escaped c = d :: rest ∧ endsWord d = false := by
  rw [ScalarText.escaped]
  split
  · exact ⟨_, _, rfl, by decide⟩
  · next plain =>
      simp only [Bool.or_eq_true, not_or, Bool.not_eq_true', Bool.not_eq_true,
        Bool.not_eq_false] at plain
      exact ⟨_, _, rfl, ScalarText.endsWord_eq_false plain.1.1.1 plain.1.1.2 other⟩

theorem content?_escaped (other : c ≠ ' ') (indented : 0 < column)
    (here : s.At column (ScalarText.escaped c ++ rest)) :
    ∃ s' column', 0 < column' ∧ s'.At column' rest ∧
      content? false (fuel + 1) acc s = content? false fuel (c :: acc) s' := by
  rw [ScalarText.escaped] at here
  split at here
  · rw [List.cons_append] at here
    obtain ⟨p, s, rfl, char, -, behind⟩ := here.next (by decide)
    obtain ⟨marker, gap⟩ := content?_solid here indented (by rw [char]; decide)
    obtain ⟨s', column', indented', there, read⟩ := escape?_escape behind
    obtain ⟨d, more, spelled, inLine⟩ := inLine_escape c
    have peek : isBreak (Source.peek s) = false := by
      rw [behind.peek_eq, spelled]
      exact inLine
    refine ⟨s', column', indented', there, ?_⟩
    rw [content?, marker, gap, char, peek, read]
    rfl
  · next plain =>
      simp only [Bool.or_eq_true, not_or, Bool.not_eq_true', Bool.not_eq_true,
        Bool.not_eq_false, decide_eq_true_eq] at plain
      obtain ⟨⟨⟨printable, inLine⟩, quote⟩, backslash⟩ := plain
      obtain ⟨p, s, rfl, rfl, -, behind⟩ := here.next inLine
      obtain ⟨marker, gap⟩ := content?_solid here indented
        (ScalarText.endsWord_eq_false printable inLine other)
      refine ⟨s, _, Nat.succ_pos _, behind, ?_⟩
      rw [content?, marker, gap]
      simp [quote, backslash]

theorem content?_doubleQuote (indented : 0 < column) (here : s.At column ('"' :: rest)) :
    ∃ s', s'.At (column + 1) rest ∧
      content? false (fuel + 1) acc s = some (String.ofList acc.reverse, s') := by
  obtain ⟨p, s, rfl, char, -, behind⟩ := here.next (by decide)
  obtain ⟨marker, gap⟩ := content?_solid here indented (by rw [char]; decide)
  refine ⟨s, behind, ?_⟩
  rw [content?, marker, gap, char]
  rfl

def doubleQuotes : Spelling false where
  quote := '"'
  endsWord_quote := by decide
  spell := ScalarText.escaped
  breaks _ := false
  fits _ := True
  space := by decide
  breaks_space := rfl
  isBreak_of_breaks _ _ ends := by cases ends
  solid _ _ _ := solid_escaped
  char _ _ _ _ _ _ _ _ other := content?_escaped other
  close _ _ _ _ _ indented _ := content?_doubleQuote indented

/-- Every text is read back from double quotes. -/
theorem read?_doubleQuoted (text : List Char) : ∃ inside,
    ScalarText.doubleQuoted text = '"' :: inside ∧
    ∀ ⦃column : Nat⦄ ⦃s : Source⦄ ⦃rest : List Char⦄, 0 < column → rest.head? ≠ some '"' →
      s.At column (inside ++ rest) →
      ∃ s' column', read? false s = some (String.ofList text, s') ∧ s'.At column' rest := by
  have fits : doubleQuotes.Fits text :=
    { fits := fun _ _ => trivial
      before := ScalarText.hasPair_eq_false_of_second fun _ _ => rfl
      behind := ScalarText.hasPair_eq_false_of_first fun _ _ => rfl }
  refine ⟨_, ScalarText.doubleQuoted_eq 1 text, fun column s rest indented last here => ?_⟩
  rw [List.append_assoc] at here
  exact Spelling.read?_inside fits Nat.one_pos indented last here

end QuotedScalar

end CircuitDag.Yaml
