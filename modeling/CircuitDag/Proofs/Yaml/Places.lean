import CircuitDag.Yaml.ScalarText
import Mathlib.Data.List.TakeDrop

/-!
# Places in YAML text

`s.At column text` says what is left to be read from a source and in which column it goes on. Lines
and offsets do not matter to what is read, save for keys, so they are left open.
-/

set_option autoImplicit false

namespace CircuitDag.Yaml

variable {column : Nat} {c : Char} {text rest taken : List Char} {s : Source}

/-! ## Characters -/

theorem not_isBlank_of_isBreak (ends : isBreak c = true) : isBlank c = false := by
  simp only [isBreak, Bool.or_eq_true, decide_eq_true_eq] at ends
  rcases ends with (rfl | rfl) | rfl <;> decide

/-- A text that is empty or goes on with a word. -/
def StartsWord (text : List Char) : Prop := ∀ c, text.head? = some c → endsWord c = false

theorem StartsWord.solid (starts : StartsWord text) :
    isBlank (text.head?.getD endMark) = false ∧ isBreak (text.head?.getD endMark) = false := by
  cases text with
  | nil => decide
  | cons c text =>
      have ends := starts c rfl
      simp only [endsWord, endsLine, Bool.or_eq_false_iff] at ends
      exact ⟨ends.1, ends.2.1⟩

namespace ScalarText

theorem isPrintable_endMark : isPrintable endMark = false := by decide

theorem isPrintable_tab : isPrintable '\t' = false := by decide

/-- The only blank that is printed is the space. -/
theorem eq_space_of_isBlank (printable : isPrintable c = true) (blank : isBlank c = true) :
    c = ' ' := by
  rw [isBlank, Bool.or_eq_true, decide_eq_true_eq, decide_eq_true_eq] at blank
  rcases blank with rfl | rfl
  · rfl
  · cases isPrintable_tab.symm.trans printable

theorem ne_endMark (printable : isPrintable c = true) : c ≠ endMark := by
  rintro rfl
  cases isPrintable_endMark.symm.trans printable

theorem endsWord_eq_false (printable : isPrintable c = true) (inLine : isBreak c = false)
    (other : c ≠ ' ') : endsWord c = false := by
  have solid : isBlank c = false :=
    Bool.of_not_eq_true fun blank => other (eq_space_of_isBlank printable blank)
  rw [endsWord, endsLine, solid, inLine, decide_eq_false (ne_endMark printable)]
  rfl

/-! ## Neighbours -/

theorem hasPair_eq_false_of_first {first second : Char → Bool}
    (none : ∀ c ∈ text, first c = false) : hasPair first second text = false := by
  induction text with
  | nil => rfl
  | cons c text ih =>
      rw [List.forall_mem_cons] at none
      cases text with
      | nil => rfl
      | cons d text => rw [hasPair, ih none.2, none.1]; rfl

theorem hasPair_eq_false_of_second {first second : Char → Bool}
    (none : ∀ c ∈ text, second c = false) : hasPair first second text = false := by
  induction text with
  | nil => rfl
  | cons c text ih =>
      rw [List.forall_mem_cons] at none
      cases text with
      | nil => rfl
      | cons d text => rw [hasPair, ih none.2, none.2 d List.mem_cons_self]; simp

/-- Neighbours somewhere in a text. -/
theorem of_hasPair_eq_false {first second : Char → Bool} {before : List Char} {a b : Char}
    (none : hasPair first second (before ++ a :: b :: rest) = false) :
    first a = false ∨ second b = false := by
  induction before with
  | nil =>
      rw [List.nil_append, hasPair, Bool.or_eq_false_iff, Bool.and_eq_false_iff] at none
      exact none.1
  | cons c before ih =>
      cases before with
      | nil => exact ih (Bool.or_eq_false_iff.mp none).2
      | cons d before => exact ih (Bool.or_eq_false_iff.mp none).2

theorem hasPair_append_right {first second : Char → Bool} {before : List Char}
    (none : hasPair first second (before ++ text) = false) : hasPair first second text = false := by
  induction before with
  | nil => exact none
  | cons c before ih =>
      cases shape : before ++ text with
      | nil =>
          rw [(List.append_eq_nil_iff.mp shape).2]
          rfl
      | cons d more =>
          rw [List.cons_append, shape, hasPair, Bool.or_eq_false_iff] at none
          exact ih (shape ▸ none.2)

end ScalarText

/-! ## What is left of a source -/

namespace Source

def At (s : Source) (column : Nat) (text : List Char) : Prop :=
  ∃ line index, s = locate line column index text

theorem startsWithMarker_eq_false {p : Place} {marker : Char}
    (other : p.char ≠ marker ∨ Source.peek s ≠ marker) :
    startsWithMarker (p :: s) marker = false := by
  rw [startsWithMarker.eq_def]
  split
  · next a b _ _ shape =>
      obtain ⟨rfl, behind⟩ := List.cons.inj shape
      rw [behind] at other
      rcases other with other | other
      · simp [other]
      · have other : b.char ≠ marker := other
        simp [other]
  · rfl

namespace At

/-- A source is never empty: its last place is the end of the text. -/
theorem front (here : s.At column text) : ∃ p s', s = p :: s' ∧
    p.char = text.head?.getD endMark ∧ p.column = column := by
  obtain ⟨line, index, rfl⟩ := here
  cases text <;> exact ⟨_, _, rfl, rfl, rfl⟩

theorem nil (here : s.At column []) : ∃ p, s = [p] ∧ p.char = endMark ∧ p.column = column := by
  obtain ⟨line, index, rfl⟩ := here
  exact ⟨_, rfl, rfl, rfl⟩

theorem cons (here : s.At column (c :: rest)) : ∃ p s', s = p :: s' ∧ p.char = c ∧
    p.column = column ∧ At s' (if isBreak c then 0 else column + 1) rest := by
  obtain ⟨line, index, rfl⟩ := here
  refine ⟨_, _, rfl, rfl, rfl, ?_⟩
  split
  · exact ⟨_, _, rfl⟩
  · exact ⟨_, _, rfl⟩

theorem next (here : s.At column (c :: rest)) (inLine : isBreak c = false) : ∃ p s', s = p :: s' ∧
    p.char = c ∧ p.column = column ∧ At s' (column + 1) rest := by
  obtain ⟨p, s', shape, char, place, behind⟩ := here.cons
  rw [inLine] at behind
  exact ⟨p, s', shape, char, place, behind⟩

theorem nextLine (here : s.At column (c :: rest)) (lineEnd : isBreak c = true) :
    ∃ p s', s = p :: s' ∧
    p.char = c ∧ p.column = column ∧ At s' 0 rest := by
  obtain ⟨p, s', shape, char, place, behind⟩ := here.cons
  rw [lineEnd] at behind
  exact ⟨p, s', shape, char, place, behind⟩

theorem peek_eq (here : s.At column text) : s.peek = text.head?.getD endMark := by
  obtain ⟨p, s', rfl, char, -⟩ := here.front
  exact char

theorem column_eq (here : s.At column text) : s.column = column := by
  obtain ⟨p, s', rfl, -, place⟩ := here.front
  exact place

theorem length_eq (here : s.At column text) : s.length = text.length + 1 := by
  obtain ⟨line, index, rfl⟩ := here
  induction text generalizing line column index with
  | nil => rfl
  | cons c text ih =>
      rw [locate, List.length_cons, List.length_cons]
      split <;> rw [ih]

theorem drop_one (here : s.At column (c :: rest)) (inLine : isBreak c = false) :
    At (s.drop 1) (column + 1) rest := by
  obtain ⟨p, s', rfl, -, -, behind⟩ := here.next inLine
  exact behind

theorem take_drop (here : s.At column (taken ++ rest)) (inLine : ∀ c ∈ taken, isBreak c = false) :
    (s.take taken.length).map Place.char = taken ∧
      At (s.drop taken.length) (column + taken.length) rest := by
  induction taken generalizing s column with
  | nil => exact ⟨rfl, here⟩
  | cons c taken ih =>
      rw [List.forall_mem_cons] at inLine
      obtain ⟨p, s, rfl, rfl, -, behind⟩ := here.next inLine.1
      obtain ⟨chars, there⟩ := ih behind inLine.2
      rw [List.length_cons, List.take_succ_cons, List.drop_succ_cons, List.map_cons, chars,
        Nat.add_comm taken.length, ← Nat.add_assoc]
      exact ⟨rfl, there⟩

/-- Markers of documents stand at the start of a line. -/
theorem not_startsWithMarker (here : s.At column text) (indented : 0 < column) (marker : Char) :
    s.startsWithMarker marker = false := by
  obtain ⟨p, s', rfl, -, rfl⟩ := here.front
  rw [startsWithMarker.eq_def]
  split
  · next shape =>
      rw [← (List.cons.inj shape).1, decide_eq_false (Nat.ne_of_gt indented)]
      rfl
  · rfl

/-- Nothing is left on a line but its end. -/
theorem finishLine?_eq (here : s.At column ('\n' :: rest)) :
    ∃ s', s.finishLine? = some s' ∧ s'.At 0 rest := by
  obtain ⟨p, s, rfl, char, -, behind⟩ := here.nextLine rfl
  refine ⟨s, ?_, behind⟩
  have blank : isBlank p.char = false := by rw [char]; rfl
  have ends : isBreak p.char = true := by rw [char]; rfl
  have other : p.char ≠ '#' := by rw [char]; decide
  simp [finishLine?, skipWhile, blank, peek, other, endsLine, ends]

/-- Characters of one line that are accepted, in front of one that is not. -/
theorem span_eq {accept : Char → Bool} (here : s.At column (taken ++ rest))
    (accepted : ∀ c ∈ taken, accept c = true ∧ isBreak c = false)
    (stops : accept (rest.head?.getD endMark) = false) :
    ∃ s', s.span accept = (taken, s') ∧ At s' (column + taken.length) rest := by
  simp only [span, List.span_eq_takeWhile_dropWhile]
  induction taken generalizing s column with
  | nil =>
      refine ⟨s, ?_, here⟩
      obtain ⟨p, s', rfl, char, -⟩ := (show At s column rest from here).front
      rw [← char] at stops
      rw [List.takeWhile_cons_of_neg (by simp [stops]),
        List.dropWhile_cons_of_neg (by simp [stops])]
      rfl
  | cons c taken ih =>
      rw [List.forall_mem_cons] at accepted
      obtain ⟨p, s, rfl, rfl, -, behind⟩ := here.next accepted.1.2
      obtain ⟨s', split, there⟩ := ih behind accepted.2
      rw [Prod.mk.injEq] at split
      refine ⟨s', ?_, by rwa [List.length_cons, Nat.add_comm taken.length, ← Nat.add_assoc]⟩
      simp only [List.takeWhile_cons, List.dropWhile_cons, accepted.1.1, ↓reduceIte, List.map_cons,
        split.1, split.2]

end At

end Source

end CircuitDag.Yaml
