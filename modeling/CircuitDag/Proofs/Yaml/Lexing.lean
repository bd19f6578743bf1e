import CircuitDag.Proofs.Yaml.Printing
import CircuitDag.Yaml.Lexer

/-!
# Splitting block text into tokens

`Scans margin outer keyAllowed column text ts` says that the tokens `ts` are taken from a text that
goes on in some column of the innermost block. It is proved from the end of a text to its start:
each lemma puts one word in front of a text whose tokens are known.
-/

set_option autoImplicit false

namespace CircuitDag.Yaml

open Source (At)

namespace Lexer

variable {margin column fuel : Nat} {outer : List Nat} {keyAllowed : Bool} {c : Char}
  {text rest : List Char} {ts : List Token} {tokens : Array Token} {key? : Option PossibleKey}
  {p : Place} {s : Source}

/-! ## Possible keys -/

/-- A possible key that may be given up. -/
def Optional (key? : Option PossibleKey) : Prop := ∀ key, key? = some key → key.required = false

theorem optional_none : Optional none := nofun

theorem Optional.abandon? (optional : Optional key?) : Lexer.abandon? key? = some none := by
  cases key? with
  | none => rfl
  | some key => rw [Lexer.abandon?, optional key rfl]; rfl

theorem Optional.expireKey? (optional : Optional key?) (p : Place) :
    ∃ key?', Lexer.expireKey? p key? = some key?' ∧ Optional key?' := by
  cases key? with
  | none => exact ⟨none, rfl, optional_none⟩
  | some key =>
      rw [Lexer.expireKey?]
      split
      · exact ⟨none, optional.abandon?, optional_none⟩
      · exact ⟨some key, rfl, optional⟩

/-! ## Steps -/

/-- A character that begins a token. -/
def BeginsToken (c : Char) : Prop := endsWord c = false ∧ c ≠ '#' ∧ c ≠ byteOrderMark

theorem skipBlanks_word (begins : BeginsToken p.char) (flow : Bool) :
    skipBlanks flow keyAllowed false (p :: s) = (keyAllowed, p :: s) := by
  obtain ⟨solid, comment, mark⟩ := begins
  simp only [endsWord, endsLine, isBlank, Bool.or_eq_false_iff, decide_eq_false_iff_not] at solid
  obtain ⟨⟨space, tab⟩, breaks, ends⟩ := solid
  simp [skipBlanks, breaks, ends, comment, mark, space, tab]

theorem closeBlocks_eq (deep : margin ≤ column) :
    (⟨tokens, key?, [], margin, outer, keyAllowed⟩ : Lexer).closeBlocks column =
      ⟨tokens, key?, [], margin, outer, keyAllowed⟩ := by
  have same : closeMargins column margin outer tokens = (margin, outer, tokens) := by
    cases outer with
    | nil => rfl
    | cons other outer => rw [closeMargins, if_neg (Nat.not_lt.mpr deep)]
  rw [closeBlocks, same]
  rfl

theorem run?_token {key?' : Option PossibleKey} (begins : BeginsToken p.char)
    (deep : margin ≤ p.column + 1) (expire : Lexer.expireKey? p key? = some key?') :
    run? (fuel + 1) ⟨tokens, key?, [], margin, outer, keyAllowed⟩ (p :: s) =
      (token? ⟨tokens, key?', [], margin, outer, keyAllowed⟩ p (p :: s)).bind
        fun next => run? fuel next.1 next.2 := by
  have other : p.char ≠ endMark := by
    intro same
    have solid := begins.1
    rw [same] at solid
    cases solid
  have expired : (⟨tokens, key?, [], margin, outer, keyAllowed⟩ : Lexer).expireKeys? p =
      some ⟨tokens, key?', [], margin, outer, keyAllowed⟩ := by
    simp [expireKeys?, expire]
  rw [run?, skipBlanks_word begins]
  simp only [expired, Option.bind_eq_bind, Option.bind_some, closeBlocks_eq deep, other, ↓reduceIte]

/-! ## Texts in blocks -/

/-- The tokens `ts` are taken from a text that goes on in some column, outside of brackets, where
`margin` and `outer` tell the blocks and `keyAllowed` says whether a key may start. -/
def Scans (margin : Nat) (outer : List Nat) (keyAllowed : Bool) (column : Nat) (text : List Char)
    (ts : List Token) : Prop :=
  ∀ ⦃fuel : Nat⦄ ⦃tokens : Array Token⦄ ⦃key? : Option PossibleKey⦄ ⦃s : Source⦄,
    s.At column text → text.length < fuel → Optional key? →
    (run? fuel ⟨tokens, key?, [], margin, outer, keyAllowed⟩ s).map (·.tokens.toList) =
      some (tokens.toList ++ ts)

/-- After a step, the tokens `ts` come next, and a number of further steps are enough. -/
def Continues (tokens : Array Token) (steps : Nat) (ts : List Token)
    (next? : Option (Lexer × Source)) : Prop :=
  ∃ l s, next? = some (l, s) ∧ ∀ ⦃fuel : Nat⦄, steps < fuel →
    (run? fuel l s).map (·.tokens.toList) = some (tokens.toList ++ ts)

variable {margin' column' steps : Nat} {outer' : List Nat} {keyAllowed' : Bool}
  {tokens' : Array Token} {key?' : Option PossibleKey}

theorem Scans.continues (scans : Scans margin' outer' keyAllowed' column' rest ts)
    (new : List Token) (left : s.At column' rest) (shorter : rest.length ≤ steps)
    (optional : Optional key?')
    (more : tokens'.toList = tokens.toList ++ new) :
    Continues tokens steps (new ++ ts)
      (some (⟨tokens', key?', [], margin', outer', keyAllowed'⟩, s)) := by
  refine ⟨_, s, rfl, fun fuel enough => ?_⟩
  rw [scans left (Nat.lt_of_le_of_lt shorter enough) optional, more, List.append_assoc]

/-- The first token and those behind it. -/
theorem Scans.of_token (begins : BeginsToken c) (deep : margin ≤ column + 1)
    (take : ∀ (tokens : Array Token) ⦃key? : Option PossibleKey⦄ ⦃p : Place⦄ ⦃s : Source⦄,
      At (p :: s) column (c :: text) → p.char = c → p.column = column → Optional key? →
      Continues tokens text.length ts
        (token? ⟨tokens, key?, [], margin, outer, keyAllowed⟩ p (p :: s))) :
    Scans margin outer keyAllowed column (c :: text) ts := by
  intro fuel tokens key? s here enough optional
  obtain ⟨fuel, rfl⟩ := Nat.exists_eq_add_one_of_ne_zero (Nat.ne_zero_of_lt enough)
  obtain ⟨p, s, rfl, char, place, -⟩ := here.cons
  obtain ⟨key?', expire, optional'⟩ := optional.expireKey? p
  obtain ⟨l, s', taken, later⟩ := take tokens here char place optional'
  rw [run?_token (char ▸ begins) (place ▸ deep) expire, taken]
  exact later (Nat.lt_of_succ_lt_succ enough)

/-- What is skipped before a token does not matter. -/
theorem run?_congr {s' : Source}
    (same : skipBlanks false keyAllowed false s = skipBlanks false keyAllowed' false s') :
    run? fuel ⟨tokens, key?, [], margin, outer, keyAllowed⟩ s =
      run? fuel ⟨tokens, key?, [], margin, outer, keyAllowed'⟩ s' := by
  cases fuel with
  | zero => rfl
  | succ fuel =>
      have flow : ∀ allowed, (⟨tokens, key?, [], margin, outer, allowed⟩ : Lexer).inFlow = false :=
        fun _ => rfl
      rw [run?, run?]
      simp only [flow, same]

theorem Scans.space (scans : Scans margin outer keyAllowed (column + 1) rest ts) :
    Scans margin outer keyAllowed column (' ' :: rest) ts := by
  intro fuel tokens key? s here enough optional
  obtain ⟨p, s, rfl, char, -, behind⟩ := here.next (by decide)
  have skip : skipBlanks false keyAllowed false (p :: s) = skipBlanks false keyAllowed false s := by
    rw [skipBlanks, char]
    rfl
  rw [run?_congr skip]
  exact scans behind (Nat.lt_of_succ_lt enough) optional

theorem Scans.spaces {n : Nat} (scans : Scans margin outer keyAllowed (column + n) rest ts) :
    Scans margin outer keyAllowed column (List.replicate n ' ' ++ rest) ts := by
  induction n generalizing column with
  | zero => exact scans
  | succ n ih => exact (ih (by rwa [Nat.add_right_comm])).space

/-- A text at the start of a line, whose first token begins an item or a key of the innermost block
or stands further left. -/
def ScansLine (margin : Nat) (outer : List Nat) (text : List Char) (ts : List Token) : Prop :=
  ∃ k rest, text = List.replicate k ' ' ++ rest ∧ (∀ c, rest.head? = some c → BeginsToken c) ∧
    k < margin ∧ Scans margin outer true k rest ts

theorem Scans.line {k : Nat} (begins : BeginsToken c) (within : k < margin)
    (scans : Scans margin outer true k (c :: text) ts) :
    ScansLine margin outer (List.replicate k ' ' ++ c :: text) ts := by
  refine ⟨k, c :: text, rfl, ?_, within, scans⟩
  rintro d same
  cases same
  exact begins

theorem Scans.lineEnd (scans : Scans margin outer true 0 rest ts) :
    Scans margin outer keyAllowed column ('\n' :: rest) ts := by
  intro fuel tokens key? s here enough optional
  obtain ⟨p, s, rfl, char, -, behind⟩ := here.nextLine rfl
  have skip : skipBlanks false keyAllowed false (p :: s) = skipBlanks false true false s := by
    rw [skipBlanks, char]
    simp [isBreak]
  rw [run?_congr skip]
  exact scans behind (Nat.lt_of_succ_lt enough) optional

theorem ScansLine.lineEnd (scans : ScansLine margin outer rest ts) :
    Scans margin outer keyAllowed column ('\n' :: rest) ts := by
  obtain ⟨k, rest, rfl, -, -, scans⟩ := scans
  exact (Scans.spaces (by rwa [Nat.zero_add])).lineEnd

/-- A block is closed at the first token that stands further left. -/
theorem closeBlocks_push {inner : Nat} (left : column < inner) :
    (⟨tokens, key?, [], inner, margin :: outer, keyAllowed⟩ : Lexer).closeBlocks column =
      (⟨tokens.push .blockEnd, key?, [], margin, outer, keyAllowed⟩ : Lexer).closeBlocks
        column := by
  rw [closeBlocks, closeBlocks, closeMargins, if_pos left]
  rfl

theorem ScansLine.close (scans : ScansLine margin outer rest ts) (inner : Nat)
    (deeper : margin < inner) : ScansLine inner (margin :: outer) rest (.blockEnd :: ts) := by
  obtain ⟨k, rest, rfl, begins, within, scans⟩ := scans
  refine ⟨k, rest, rfl, begins, Nat.lt_trans within deeper, ?_⟩
  intro fuel tokens key? s here enough optional
  have outside := @scans _ (tokens.push .blockEnd) _ _ here enough optional
  obtain ⟨fuel, rfl⟩ := Nat.exists_eq_add_one_of_ne_zero (Nat.ne_zero_of_lt enough)
  obtain ⟨p, s, rfl, char, place⟩ := here.front
  have skip : skipBlanks false true false (p :: s) = (true, p :: s) := by
    cases rest with
    | nil =>
        rw [skipBlanks, char]
        rfl
    | cons c rest => exact skipBlanks_word (char ▸ begins c rfl) false
  obtain ⟨key?', expire, -⟩ := optional.expireKey? p
  have flow : ∀ tokens margin outer,
      (⟨tokens, key?, [], margin, outer, true⟩ : Lexer).inFlow = false := fun _ _ _ => rfl
  have expired : ∀ tokens margin outer,
      (⟨tokens, key?, [], margin, outer, true⟩ : Lexer).expireKeys? p =
        some ⟨tokens, key?', [], margin, outer, true⟩ := by
    intro tokens margin outer
    simp [expireKeys?, expire]
  have left : p.column + 1 < inner := by omega
  rw [run?] at outside ⊢
  simp only [flow, skip, expired, Option.bind_eq_bind, Option.bind_some] at outside ⊢
  rw [closeBlocks_push left, outside, Array.toList_push, List.append_assoc]
  rfl

/-- At the end of the text the outermost block is closed. -/
theorem scansLine_nil : ScansLine 1 [0] [] [.blockEnd] := by
  refine ⟨0, [], rfl, nofun, Nat.one_pos, ?_⟩
  intro fuel tokens key? s here enough optional
  obtain ⟨fuel, rfl⟩ := Nat.exists_eq_add_one_of_ne_zero (Nat.ne_zero_of_lt enough)
  obtain ⟨p, rfl, char, place⟩ := here.nil
  obtain ⟨key?', expire, optional'⟩ := optional.expireKey? p
  have expired : (⟨tokens, key?, [], 1, [0], true⟩ : Lexer).expireKeys? p =
      some ⟨tokens, key?', [], 1, [0], true⟩ := by
    simp [expireKeys?, expire]
  have skip : skipBlanks false true false [p] = (true, [p]) := by
    rw [skipBlanks, char]
    rfl
  have flow : (⟨tokens, key?, [], 1, [0], true⟩ : Lexer).inFlow = false := rfl
  have closed : (⟨tokens, key?', [], 1, [0], true⟩ : Lexer).leaveBlocks? =
      some ⟨tokens.push .blockEnd, none, [], 0, [], false⟩ := by
    have same : (⟨tokens, key?', [], 1, [0], true⟩ : Lexer).closeBlocks 0 =
      ⟨tokens.push .blockEnd, key?', [], 0, [], true⟩ := rfl
    rw [leaveBlocks?, same, dropKey?, optional'.abandon?]
    rfl
  rw [run?]
  simp only [flow, skip, expired, Option.bind_eq_bind, Option.bind_some, place, char, ↓reduceIte,
    closeBlocks_eq (Nat.le_refl 1)]
  rw [closed]
  simp

/-! ## Items -/

/-- A hyphen in front of a blank or a line end. -/
theorem token?_entry {l : Lexer} (char : p.char = '-') (blank : endsWord (Source.peek s) = true) :
    l.token? p (p :: s) = (l.blockItem? p).map fun l => (l, s) := by
  have hyphens : Source.startsWithMarker (p :: s) '-' = false := by
    refine Source.startsWithMarker_eq_false (.inr ?_)
    intro same
    rw [same] at blank
    cases blank
  have points : Source.startsWithMarker (p :: s) '.' = false :=
    Source.startsWithMarker_eq_false (.inl (by rw [char]; decide))
  simp [token?, hyphens, points, char, blank]

theorem blockItem?_same (optional : Optional key?) (inside : p.column < margin) :
    (⟨tokens, key?, [], margin, outer, true⟩ : Lexer).blockItem? p =
      some ⟨tokens.push .blockEntry, none, [], margin, outer, true⟩ := by
  have same : (⟨tokens, key?, [], margin, outer, true⟩ : Lexer).blockAt? p .blockSequenceStart =
      some ⟨tokens, key?, [], margin, outer, true⟩ := by
    simp [blockAt?, inFlow, openBlock, inside]
  simp [blockItem?, same, dropKey?, optional.abandon?, allowKey, emit]

theorem insertIdx_length {α : Type} (l more : List α) (a : α) :
    (l ++ more).insertIdx l.length a = l ++ a :: more := by
  induction l with
  | nil => rfl
  | cons b l ih => rw [List.cons_append, List.length_cons, List.insertIdx_succ_cons, ih]; rfl

theorem insertIdxIfInBounds_size {tokens' : Array Token} {more : List Token}
    (shape : tokens'.toList = tokens.toList ++ more) (token : Token) :
    (tokens'.insertIdxIfInBounds tokens.size token).toList = tokens.toList ++ token :: more := by
  obtain ⟨l⟩ := tokens'
  rw [List.insertIdxIfInBounds_toArray, ← insertIdx_length, ← shape]
  rfl

theorem blockItem?_first (optional : Optional key?) (deeper : margin ≤ p.column) :
    (⟨tokens, key?, [], margin, outer, true⟩ : Lexer).blockItem? p =
      some ⟨(tokens.insertIdxIfInBounds tokens.size .blockSequenceStart).push .blockEntry, none, [],
        p.column + 1, margin :: outer, true⟩ := by
  have opened : (⟨tokens, key?, [], margin, outer, true⟩ : Lexer).blockAt? p .blockSequenceStart =
      some ⟨tokens.insertIdxIfInBounds tokens.size .blockSequenceStart, key?, [], p.column + 1,
        margin :: outer, true⟩ := by
    simp [blockAt?, inFlow, openBlock, Nat.not_lt.mpr deeper, insertAt]
  simp [blockItem?, opened, dropKey?, optional.abandon?, allowKey, emit]

theorem Scans.entry (blank : endsWord (rest.head?.getD endMark) = true)
    (scans : Scans (column + 1) outer true (column + 1) rest ts) :
    Scans (column + 1) outer true column ('-' :: rest) (.blockEntry :: ts) := by
  refine .of_token ⟨by decide, by decide, by decide⟩ (Nat.le_refl _)
    fun tokens key? p s here char place optional => ?_
  obtain ⟨q, s', shape, -, -, behind⟩ := here.next (by decide)
  obtain ⟨rfl, rfl⟩ := List.cons.inj shape
  rw [token?_entry char (by rwa [behind.peek_eq]),
    blockItem?_same optional (place ▸ Nat.lt_succ_self _)]
  exact scans.continues [.blockEntry] behind (Nat.le_refl _) optional_none (by simp)

/-- The first item of a sequence that is indented. -/
theorem Scans.firstEntry (blank : endsWord (rest.head?.getD endMark) = true)
    (deeper : margin ≤ column)
    (scans : Scans (column + 1) (margin :: outer) true (column + 1) rest ts) :
    Scans margin outer true column ('-' :: rest) (.blockSequenceStart :: .blockEntry :: ts) := by
  refine .of_token ⟨by decide, by decide, by decide⟩ (Nat.le_succ_of_le deeper)
    fun tokens key? p s here char place optional => ?_
  obtain ⟨q, s', shape, -, -, behind⟩ := here.next (by decide)
  obtain ⟨rfl, rfl⟩ := List.cons.inj shape
  subst place
  rw [token?_entry char (by rwa [behind.peek_eq]), blockItem?_first optional deeper]
  exact scans.continues [.blockSequenceStart, .blockEntry] behind (Nat.le_refl _) optional_none
    (by
      rw [Array.toList_push, insertIdxIfInBounds_size (List.append_nil _).symm, List.append_assoc]
      rfl)

/-! ## Words -/

/-- A key may start at a word that stands further right than the keys of the block. -/
theorem saveKey?_eq (tokens : Array Token) (outer : List Nat) (keyAllowed : Bool)
    (optional : Optional key?) (deep : margin ≤ p.column) :
    ∃ key?', Optional key?' ∧
      (⟨tokens, key?, [], margin, outer, keyAllowed⟩ : Lexer).saveKey? p =
        some ⟨tokens, key?', [], margin, outer, keyAllowed⟩ := by
  cases keyAllowed with
  | false => exact ⟨key?, optional, rfl⟩
  | true =>
      refine ⟨some ⟨tokens.size, false, p.line, p.column, p.index⟩, ?_, ?_⟩
      · rintro key same
        cases same
        rfl
      · simp [saveKey?, dropKey?, optional.abandon?, inFlow, Nat.ne_of_lt (Nat.lt_succ_of_le deep)]

theorem word?_eq (tokens : Array Token) (outer : List Nat) (keyAllowed : Bool)
    (optional : Optional key?) (deep : margin ≤ p.column) :
    ∃ key?', Optional key?' ∧
      (⟨tokens, key?, [], margin, outer, keyAllowed⟩ : Lexer).word? p =
        some ⟨tokens, key?', [], margin, outer, false⟩ := by
  obtain ⟨key?', optional', saved⟩ := saveKey?_eq tokens outer keyAllowed optional deep
  exact ⟨key?', optional', by rw [word?, saved]; rfl⟩

theorem unmarked (hyphen : p.char ≠ '-') (point : p.char ≠ '.') :
    Source.startsWithMarker (p :: s) '-' = false ∧ Source.startsWithMarker (p :: s) '.' = false :=
  ⟨Source.startsWithMarker_eq_false (.inl hyphen), Source.startsWithMarker_eq_false (.inl point)⟩

/-- A word that is no document marker begins a plain scalar. -/
theorem token?_plain (starts : PlainScalar.Starts c rest) (here : At (p :: s) column (c :: rest))
    (apart : 0 < column ∨ c ≠ '-' ∧ c ≠ '.') :
    (⟨tokens, key?, [], margin, outer, keyAllowed⟩ : Lexer).token? p (p :: s) =
      ((⟨tokens, key?, [], margin, outer, keyAllowed⟩ : Lexer).word? p).bind fun l =>
        (PlainScalar.read? l.inFlow l.margin (p :: s)).bind fun read =>
          some ((l.allowKey read.1.lineEnded).emit (.scalar .plain read.1.text), read.2) := by
  have starting := PlainScalar.startsAt_of_starts starts here
  obtain ⟨q, s', shape, char, -, behind⟩ := here.next starts.inLine
  obtain ⟨rfl, rfl⟩ := List.cons.inj shape
  have marker : Source.startsWithMarker (p :: s) '-' = false ∧
      Source.startsWithMarker (p :: s) '.' = false := by
    rcases apart with indented | ⟨hyphen, point⟩
    · exact ⟨here.not_startsWithMarker indented '-', here.not_startsWithMarker indented '.'⟩
    · exact unmarked (char ▸ hyphen) (char ▸ point)
  have followed := starts.followed
  have noIndicator := starts.noIndicator
  rw [← behind.peek_eq, ← char] at followed
  rw [← char] at noIndicator
  simp at noIndicator followed
  have flow : (⟨tokens, key?, [], margin, outer, keyAllowed⟩ : Lexer).inFlow = false := rfl
  have hanging : ∀ d, d = '?' ∨ d = ':' ∨ d = '-' →
      (decide (p.char = d) && endsWord (Source.peek s)) = false := by
    intro d either
    by_cases same : p.char = d
    · have word := followed (by
        rw [same]
        rcases either with rfl | rfl | rfl <;> simp)
      rw [word, Bool.and_false]
    · rw [decide_eq_false same, Bool.false_and]
  simp only [token?, flow, starting, marker.1, marker.2,
    List.drop_succ_cons, List.drop_zero, hanging '-' (by simp), hanging '?' (by simp),
    hanging ':' (by simp), noIndicator, Bool.false_or, Bool.not_false, Bool.and_true,
    Bool.and_false, decide_false, Bool.or_self, Bool.false_eq_true, ↓reduceIte]
  rfl

theorem beginsToken_of_starts (starts : PlainScalar.Starts c rest)
    (printable : ScalarText.isPrintable c = true) : BeginsToken c := by
  have noIndicator := starts.noIndicator
  simp at noIndicator
  refine ⟨starts.solid, noIndicator.1, ?_⟩
  rintro rfl
  cases printable

theorem Scans.plain (keyAllowed : Bool) (allowed : ScalarText.plainAllowed text = true)
    (deep : margin ≤ column)
    (indented : 0 < column) (scans : ScansLine margin outer rest ts) :
    Scans margin outer keyAllowed column (text ++ '\n' :: rest)
      (.scalar .plain (String.ofList text) :: ts) := by
  obtain ⟨k, rest, rfl, begins, leaves, scans⟩ := scans
  have coherent := ScalarText.coherent_of_plainAllowed allowed
  obtain ⟨c, text, rfl, starts⟩ :=
    ScalarText.starts_of_plainAllowed allowed ('\n' :: (List.replicate k ' ' ++ rest))
  refine .of_token (beginsToken_of_starts starts (coherent.printable c List.mem_cons_self))
    (Nat.le_succ_of_le deep)
    fun tokens key? p s here char place optional => ?_
  subst place
  obtain ⟨key?', optional', word⟩ := word?_eq tokens outer keyAllowed optional deep
  obtain ⟨s', read, there⟩ := PlainScalar.read?_value coherent here (Nat.le_succ_of_le deep)
    (fun d head => (begins d head).1) leaves
  rw [token?_plain starts here (.inl indented), word]
  simp only [Option.bind_some, inFlow, List.isEmpty_nil, Bool.not_true, read]
  have shorter : rest.length ≤ (text ++ '\n' :: (List.replicate k ' ' ++ rest)).length := by
    simp only [List.length_append, List.length_cons, List.length_replicate]
    omega
  exact scans.continues [.scalar .plain _] there shorter optional' Array.toList_push

theorem token?_quoted {single : Bool} (char : p.char = if single then '\'' else '"') :
    (⟨tokens, key?, [], margin, outer, keyAllowed⟩ : Lexer).token? p (p :: s) =
      ((⟨tokens, key?, [], margin, outer, keyAllowed⟩ : Lexer).word? p).bind fun l =>
        (QuotedScalar.read? single s).bind fun read =>
          some (l.emit (.scalar (if single then .singleQuoted else .doubleQuoted) read.1),
            read.2) := by
  obtain ⟨hyphens, points⟩ := unmarked (s := s) (p := p)
    (by rw [char]; cases single <;> decide) (by rw [char]; cases single <;> decide)
  cases single <;> simp [token?, char, hyphens, points]

theorem Scans.quoted (keyAllowed single : Bool) {inside : List Char}
    (reads : ∀ ⦃column : Nat⦄ ⦃s : Source⦄, 0 < column → s.At column (inside ++ '\n' :: rest) →
      ∃ s' column', QuotedScalar.read? single s = some (String.ofList text, s') ∧
        s'.At column' ('\n' :: rest))
    (deep : margin ≤ column) (scans : ScansLine margin outer rest ts) :
    Scans margin outer keyAllowed column
      ((if single then '\'' else '"') :: (inside ++ '\n' :: rest))
      (.scalar (if single then .singleQuoted else .doubleQuoted) (String.ofList text) :: ts) := by
  have begins : BeginsToken (if single then '\'' else '"') := by
    cases single <;> exact ⟨by decide, by decide, by decide⟩
  have inLine : isBreak (if single then '\'' else '"') = false := by cases single <;> decide
  refine .of_token begins (Nat.le_succ_of_le deep)
    fun tokens key? p s here char place optional => ?_
  obtain ⟨q, s', shape, -, -, behind⟩ := here.next inLine
  obtain ⟨rfl, rfl⟩ := List.cons.inj shape
  subst place
  obtain ⟨key?', optional', word⟩ := word?_eq tokens outer keyAllowed optional deep
  obtain ⟨s', column', read, there⟩ := reads (Nat.succ_pos _) behind
  have shorter : ('\n' :: rest).length ≤ (inside ++ '\n' :: rest).length := by simp
  rw [token?_quoted char, word]
  simp only [Option.bind_some, read]
  exact scans.lineEnd.continues [.scalar _ _] there shorter optional' Array.toList_push

theorem token?_literal (char : p.char = '|') (optional : Optional key?) :
    (⟨tokens, key?, [], margin, outer, keyAllowed⟩ : Lexer).token? p (p :: s) =
      (BlockScalar.read? true margin s).bind fun read =>
        some (⟨tokens.push (.scalar .literal read.1), none, [], margin, outer, true⟩, read.2) := by
  obtain ⟨hyphens, points⟩ := unmarked (s := s) (p := p) (by rw [char]; decide)
    (by rw [char]; decide)
  simp [token?, char, hyphens, points, inFlow, dropKey?,
    optional.abandon?, allowKey, emit]

/-- A literal scalar, whose lines stand further right than the block. -/
theorem Scans.literal (keyAllowed : Bool) (allowed : ScalarText.literalAllowed text = true)
    (positive : 0 < margin)
    (deep : margin ≤ column) (scans : ScansLine margin outer rest ts) :
    Scans margin outer keyAllowed column (ScalarText.literal (margin + 1) text ++ rest)
      (.scalar .literal (String.ofList text) :: ts) := by
  obtain ⟨k, rest, rfl, begins, leaves, scans⟩ := scans
  obtain ⟨inside, written, reads⟩ := BlockScalar.read?_literal (k := k) allowed positive
  rw [written, List.cons_append]
  refine .of_token ⟨by decide, by decide, by decide⟩ (Nat.le_succ_of_le deep)
    fun tokens key? p s here char place optional => ?_
  obtain ⟨q, s', shape, -, -, behind⟩ := here.next (by decide)
  obtain ⟨rfl, rfl⟩ := List.cons.inj shape
  obtain ⟨s', read, there⟩ := reads (fun d head => (begins d head).1) leaves behind
  have shorter : rest.length ≤ (inside ++ (List.replicate k ' ' ++ rest)).length := by
    simp only [List.length_append]
    omega
  rw [token?_literal char optional]
  simp only [Option.bind_some, read]
  exact scans.continues [.scalar _ _] there shorter optional_none Array.toList_push

/-- A string as it is written in a block, its further lines indented. -/
theorem Scans.string {text : String} (positive : 0 < margin) (deep : margin ≤ column)
    (scans : ScansLine margin outer rest ts) :
    Scans margin outer keyAllowed column (ScalarText.write (margin + 1) text ++ rest)
      (.scalar (ScalarText.style text) text :: ts) := by
  have back : String.ofList text.toList = text := String.ofList_toList
  rcases ScalarText.write_cases (margin + 1) text with ⟨kind, -, allowed, written⟩ |
    ⟨kind, allowed, oneLine, written⟩ | ⟨kind, allowed, written⟩ | ⟨kind, written⟩
  · have whole := Scans.plain keyAllowed allowed deep
      (Nat.lt_of_lt_of_le positive deep) scans
    rw [back] at whole
    rw [written, kind]
    simpa using whole
  · obtain ⟨inside, quoted, reads⟩ :=
      QuotedScalar.read?_singleQuoted allowed oneLine (Nat.succ_pos margin)
    have whole := Scans.quoted keyAllowed true
      (fun column s indented here => reads indented (by simp) here) deep scans
    rw [back] at whole
    rw [written, kind]
    simpa [quoted] using whole
  · have whole := Scans.literal keyAllowed allowed positive deep scans
    rw [back] at whole
    rwa [written, kind]
  · obtain ⟨inside, quoted, reads⟩ := QuotedScalar.read?_doubleQuoted text.toList
    have whole := Scans.quoted keyAllowed false
      (fun column s indented here => reads indented (by simp) here) deep scans
    rw [back] at whole
    rw [written, kind]
    simpa [quoted] using whole

/-! ## Tags -/

/-- A name that can stand behind the exclamation mark of a tag. -/
def IsTagName (name : List Char) : Prop := name ≠ [] ∧ ∀ c ∈ name, isNameChar c = true

instance (name : List Char) : Decidable (IsTagName name) :=
  decidable_of_iff (name ≠ [] ∧ name.all isNameChar = true)
    (and_congr_right fun _ => List.all_eq_true)

theorem isWordChar_of_isNameChar (named : isNameChar c = true) :
    ScalarText.isWordChar c = true := by
  rw [ScalarText.isWordChar, named]
  rfl

theorem inLine_of_isNameChar (named : isNameChar c = true) : isBreak c = false := by
  have solid := ScalarText.endsWord_eq_false_of_word (isWordChar_of_isNameChar named)
  simp only [endsWord, endsLine, Bool.or_eq_false_iff] at solid
  exact solid.2.1

theorem readTag?_name {name : List Char} (tagged : IsTagName name)
    (ends : endsWord (rest.head?.getD endMark) = true)
    (here : s.At column ('!' :: (name ++ rest))) :
    ∃ s', readTag? false s = some (⟨"!", String.ofList name⟩, s') ∧
      s'.At (column + 1 + name.length) rest := by
  obtain ⟨nonempty, named⟩ := tagged
  have inLine : ∀ c ∈ name, isNameChar c = true ∧ isBreak c = false :=
    fun c member => ⟨named c member, inLine_of_isNameChar (named c member)⟩
  have stops : ∀ c, endsWord c = true → isNameChar c = false ∧ isTagChar false c = false ∧
      c ≠ '!' ∧ c ≠ '%' := by
    intro c word
    simp only [endsWord, endsLine, isBlank, isBreak, Bool.or_eq_true, decide_eq_true_eq] at word
    rcases word with (rfl | rfl) | ((rfl | rfl) | rfl) | rfl <;> decide
  obtain ⟨notName, notTag, notMark, notPercent⟩ := stops _ ends
  obtain ⟨p, s, rfl, char, -, behind⟩ := here.next (by decide)
  obtain ⟨s', span, there⟩ := behind.span_eq inLine notName
  refine ⟨s', ?_, there⟩
  have handle : readHandle? (p :: s) = some ('!' :: name, s') := by
    simp [readHandle?, here.peek_eq, span, there.peek_eq, notMark]
  have suffix : readTagText? false s' = some ([], s') := by
    rw [readTagText?, there.length_eq, readTagChars?, there.peek_eq]
    simp [notPercent, notTag]
  have handleOnly : isNamedHandle ('!' :: name) = false := by
    cases last : name.getLast? with
    | none => exact absurd (List.getLast?_eq_none_iff.mp last) nonempty
    | some c =>
        have other : c ≠ '!' := by
          rintro rfl
          cases named _ (List.mem_of_getLast? last)
        simp [isNamedHandle, List.getLast?_cons, last, other]
  have shorthand : Source.peek s ≠ '<' := by
    rw [behind.peek_eq]
    cases name with
    | nil => exact absurd rfl nonempty
    | cons c name =>
        rintro rfl
        cases named _ List.mem_cons_self
  simp [readTag?, shorthand, readShorthandTag?, handle, suffix, handleOnly, nonempty,
    there.peek_eq, ends]

theorem token?_tag (char : p.char = '!') :
    (⟨tokens, key?, [], margin, outer, keyAllowed⟩ : Lexer).token? p (p :: s) =
      ((⟨tokens, key?, [], margin, outer, keyAllowed⟩ : Lexer).word? p).bind fun l =>
        (readTag? l.inFlow (p :: s)).bind fun read => some (l.emit (.tag read.1), read.2) := by
  obtain ⟨hyphens, points⟩ := unmarked (s := s) (p := p) (by rw [char]; decide)
    (by rw [char]; decide)
  simp [token?, char, hyphens, points]

/-- A private tag in front of a blank or a line end. -/
theorem Scans.tag (keyAllowed : Bool) {name : List Char} (tagged : IsTagName name)
    (ends : endsWord (rest.head?.getD endMark) = true) (deep : margin ≤ column)
    (scans : Scans margin outer false (column + 1 + name.length) rest ts) :
    Scans margin outer keyAllowed column ('!' :: (name ++ rest))
      (.tag ⟨"!", String.ofList name⟩ :: ts) := by
  refine .of_token ⟨by decide, by decide, by decide⟩ (Nat.le_succ_of_le deep)
    fun tokens key? p s here char place optional => ?_
  subst place
  obtain ⟨key?', optional', word⟩ := word?_eq tokens outer keyAllowed optional deep
  obtain ⟨s', read, there⟩ := readTag?_name tagged ends here
  have shorter : rest.length ≤ (name ++ rest).length := by simp
  rw [token?_tag char, word]
  simp only [Option.bind_some, inFlow, List.isEmpty_nil, Bool.not_true, read]
  exact scans.continues [.tag _] there shorter optional' Array.toList_push

/-! ## Empty sequences -/

theorem Scans.brackets (deep : margin ≤ column) (scans : ScansLine margin outer rest ts) :
    Scans margin outer keyAllowed column ('[' :: ']' :: '\n' :: rest)
      (.flowSequenceStart :: .flowSequenceEnd :: ts) := by
  refine .of_token ⟨by decide, by decide, by decide⟩ (Nat.le_succ_of_le deep)
    fun tokens key? p s here char place optional => ?_
  subst place
  obtain ⟨r, s', shape, -, -, behind⟩ := here.next (by decide)
  obtain ⟨rfl, rfl⟩ := List.cons.inj shape
  obtain ⟨q, s, rfl, close, -, after⟩ := behind.next (by decide)
  obtain ⟨key?', optional', saved⟩ := saveKey?_eq tokens outer keyAllowed optional deep
  have opened : (⟨tokens, key?, [], margin, outer, keyAllowed⟩ : Lexer).token? p (p :: q :: s) =
      some (⟨tokens.push .flowSequenceStart, none, [key?'], margin, outer, true⟩, q :: s) := by
    obtain ⟨hyphens, points⟩ := unmarked (s := q :: s) (p := p) (by rw [char]; decide)
      (by rw [char]; decide)
    simp [token?, char, hyphens, points, openFlow?, saved, allowKey, emit]
  rw [opened]
  refine ⟨_, _, rfl, fun fuel enough => ?_⟩
  obtain ⟨fuel, rfl⟩ := Nat.exists_eq_add_one_of_ne_zero (Nat.ne_zero_of_lt enough)
  obtain ⟨key?'', expire, optional''⟩ := optional'.expireKey? q
  have skip : skipBlanks true true false (q :: s) = (true, q :: s) :=
    skipBlanks_word (by rw [close]; exact ⟨by decide, by decide, by decide⟩) true
  have closed : (⟨tokens.push .flowSequenceStart, none, [key?''], margin, outer, true⟩ :
      Lexer).token? q (q :: s) =
      some (⟨(tokens.push .flowSequenceStart).push .flowSequenceEnd, key?'', [], margin, outer,
        false⟩, s) := by
    obtain ⟨hyphens, points⟩ := unmarked (s := s) (p := q) (by rw [close]; decide)
      (by rw [close]; decide)
    simp [token?, close, hyphens, points, closeFlow?, dropKey?,
      Lexer.abandon?, allowKey, emit]
  have expired : (⟨tokens.push .flowSequenceStart, none, [key?'], margin, outer, true⟩ :
      Lexer).expireKeys? q =
      some ⟨tokens.push .flowSequenceStart, none, [key?''], margin, outer, true⟩ := by
    have none : Lexer.expireKey? q none = some none := rfl
    simp [expireKeys?, expire, none]
  have other : q.char ≠ endMark := by
    rw [close]
    decide
  have flow : ∀ key?, (⟨tokens.push .flowSequenceStart, none, [key?], margin, outer, true⟩ :
      Lexer).inFlow = true := fun _ => rfl
  rw [run?]
  simp only [flow, skip, expired, Option.bind_eq_bind, Option.bind_some, closeBlocks, ↓reduceIte,
    other, closed]
  have shorter : ('\n' :: rest).length < fuel := by
    simp only [List.length_cons] at enough ⊢
    omega
  rw [scans.lineEnd after shorter optional'', Array.toList_push, Array.toList_push,
    List.append_assoc, List.append_assoc]
  rfl

/-! ## Keys -/

/-- A name that is written without quotes and fits a key. -/
structure IsKeyName (name : List Char) : Prop where
  allowed : ScalarText.plainAllowed name = true
  short : octets name ≤ maxKeyLength
  unmarked : ∀ c, name.head? = some c → c ≠ '-' ∧ c ≠ '.'

instance (name : List Char) : Decidable (IsKeyName name) :=
  decidable_of_iff (ScalarText.plainAllowed name = true ∧ octets name ≤ maxKeyLength ∧
    name.head? ≠ some '-' ∧ name.head? ≠ some '.')
    ⟨fun h => ⟨h.1, h.2.1, fun _ head =>
      ⟨fun same => h.2.2.1 (same ▸ head), fun same => h.2.2.2 (same ▸ head)⟩⟩,
      fun h => ⟨h.allowed, h.short, fun head => (h.unmarked _ head).1 rfl,
        fun head => (h.unmarked _ head).2 rfl⟩⟩

theorem word?_new (optional : Optional key?) :
    (⟨tokens, key?, [], margin, outer, true⟩ : Lexer).word? p =
      some ⟨tokens, some ⟨tokens.size, margin = p.column + 1, p.line, p.column, p.index⟩, [],
        margin, outer, false⟩ := by
  simp [word?, saveKey?, dropKey?, optional.abandon?, inFlow, allowKey]

/-- A colon in front of a blank or a line end. -/
theorem token?_value {l : Lexer} (char : p.char = ':') (blank : endsWord (Source.peek s) = true) :
    l.token? p (p :: s) = (l.value? p).map fun l => (l, s) := by
  obtain ⟨hyphens, points⟩ := unmarked (s := s) (p := p) (by rw [char]; decide)
    (by rw [char]; decide)
  simp [token?, hyphens, points, char, blank]

theorem IsKeyName.begins {name : List Char} (named : IsKeyName name) :
    ∃ c after, name = c :: after ∧ BeginsToken c := by
  have coherent := ScalarText.coherent_of_plainAllowed named.allowed
  obtain ⟨c, after, rfl, starts⟩ := ScalarText.starts_of_plainAllowed named.allowed []
  exact ⟨c, after, rfl, beginsToken_of_starts starts (coherent.printable c List.mem_cons_self)⟩

/-- Where the blocks are after a key: `opening` announces a block for it if it is the first one. -/
def Opens (margin column : Nat) (outer : List Nat) (opening : List Token) (margin' : Nat)
    (outer' : List Nat) : Prop :=
  ∀ ⦃tokens tokens' : Array Token⦄ ⦃more : List Token⦄ ⦃key? : Option PossibleKey⦄,
    tokens'.toList = tokens.toList ++ more → ∃ tokens'' : Array Token,
      (⟨tokens', key?, [], margin, outer, false⟩ : Lexer).openBlock column tokens.size
        .blockMappingStart = ⟨tokens'', key?, [], margin', outer', false⟩ ∧
      tokens''.toList = tokens.toList ++ (opening ++ more)

/-- At the colon, the key is announced where it started. -/
theorem Opens.value? {opening more : List Token} (key : PossibleKey)
    (opens : Opens margin key.column outer opening margin' outer')
    (position : key.position = tokens.size)
    (shape : tokens'.toList = tokens.toList ++ more) : ∃ tokens'',
      (⟨tokens', some key, [], margin, outer, false⟩ : Lexer).value? p =
        some ⟨tokens'', none, [], margin', outer', false⟩ ∧
      tokens''.toList = tokens.toList ++ (opening ++ .key :: more ++ [.value]) := by
  obtain ⟨tokens'', opened, shape''⟩ := @opens _ _ _ (some key)
    (insertIdxIfInBounds_size shape .key)
  refine ⟨tokens''.push .value, ?_, ?_⟩
  · rw [Lexer.value?]
    simp only [insertAt, position, opened]
    rfl
  · rw [Array.toList_push, shape'', List.append_assoc]

theorem Scans.keyWith (opening : List Token) {name : List Char} (named : IsKeyName name)
    (ends : endsWord (rest.head?.getD endMark) = true) (deep : margin ≤ column + 1)
    (opens : Opens margin column outer opening margin' outer')
    (scans : Scans margin' outer' false (column + name.length + 1) rest ts) :
    Scans margin outer true column (name ++ ':' :: rest)
      (opening ++ .key :: .scalar .plain (String.ofList name) :: .value :: ts) := by
  have coherent := ScalarText.coherent_of_plainAllowed named.allowed
  obtain ⟨c, after, rfl, starts⟩ := ScalarText.starts_of_plainAllowed named.allowed (':' :: rest)
  refine .of_token (beginsToken_of_starts starts (coherent.printable c List.mem_cons_self)) deep
    fun tokens key? p s here char place optional => ?_
  have plain : (⟨tokens, key?, [], margin, outer, true⟩ : Lexer).token? p (p :: s) = _ :=
    token?_plain starts here (.inr (named.unmarked c rfl))
  obtain ⟨line, index, located⟩ := here
  have read := PlainScalar.read?_key line index coherent deep ends
  have located : p :: s = Source.locate line column index (c :: after ++ ':' :: rest) := located
  rw [← located] at read
  rw [plain, word?_new optional]
  simp only [Option.bind_some, inFlow, List.isEmpty_nil, Bool.not_true, read]
  refine ⟨_, _, rfl, fun fuel enough => ?_⟩
  obtain ⟨fuel, rfl⟩ := Nat.exists_eq_add_one_of_ne_zero (Nat.ne_zero_of_lt enough)
  obtain ⟨rfl, -⟩ := List.cons.inj located
  -- The colon stands on the same line, near enough to the start of the key.
  have keeps : Lexer.expireKey? ⟨':', line, column + (c :: after).length,
      index + octets (c :: after)⟩
      (some ⟨tokens.size, decide (margin = column + 1), line, column, index⟩) =
      some (some ⟨tokens.size, decide (margin = column + 1), line, column, index⟩) := by
    have near := named.short
    rw [Lexer.expireKey?, if_neg (by simp; omega)]
  have behind : At (Source.locate line (column + (c :: after).length + 1)
      (index + octets (c :: after) + ':'.utf8Size) rest) (column + (c :: after).length + 1) rest :=
    ⟨_, _, rfl⟩
  obtain ⟨tokens'', taken, shape⟩ := opens.value? (p := ⟨':', line, column + (c :: after).length,
      index + octets (c :: after)⟩) ⟨tokens.size, decide (margin = column + 1), line, column, index⟩
      rfl (Array.toList_push (x := .scalar .plain (String.ofList (c :: after))))
  have shorter : rest.length < fuel := by
    have enough : (after ++ ':' :: rest).length < fuel + 1 := enough
    rw [List.length_append, List.length_cons] at enough
    omega
  have colon : BeginsToken ':' := ⟨by decide, by decide, by decide⟩
  rw [Source.locate, if_neg (by decide)]
  simp only [allowKey, emit]
  rw [run?_token colon (by simp; omega) keeps,
    token?_value rfl (by rwa [behind.peek_eq]), taken]
  simp only [Option.map_some, Option.bind_some]
  rw [scans behind shorter optional_none, shape]
  simp

theorem Scans.key {name : List Char} (named : IsKeyName name)
    (ends : endsWord (rest.head?.getD endMark) = true)
    (scans : Scans (column + 1) outer false (column + name.length + 1) rest ts) :
    Scans (column + 1) outer true column (name ++ ':' :: rest)
      (.key :: .scalar .plain (String.ofList name) :: .value :: ts) := by
  refine Scans.keyWith [] named ends (Nat.le_refl _) ?_ scans
  intro tokens tokens' more key? shape
  exact ⟨tokens', by simp [openBlock], shape⟩

/-- The first key of a block, with its colon. -/
theorem Scans.firstKey {name : List Char} (named : IsKeyName name)
    (ends : endsWord (rest.head?.getD endMark) = true) (deeper : margin ≤ column)
    (scans : Scans (column + 1) (margin :: outer) false (column + name.length + 1) rest ts) :
    Scans margin outer true column (name ++ ':' :: rest)
      (.blockMappingStart :: .key :: .scalar .plain (String.ofList name) :: .value :: ts) := by
  refine Scans.keyWith [.blockMappingStart] named ends (Nat.le_succ_of_le deeper) ?_
    scans
  intro tokens tokens' more key? shape
  refine ⟨_, ?_, insertIdxIfInBounds_size shape .blockMappingStart⟩
  simp [openBlock, inFlow, Nat.not_lt.mpr deeper, insertAt]

end Lexer

end CircuitDag.Yaml
