import CircuitDag.Json.Assembly
import CircuitDag.Json.Layout
import CircuitDag.Proofs.Json.Words

/-!
# Reading JSON texts

A value with proper numerals, whose strings have a text, is read back from its text, whichever way
it is laid out: first its tokens from the text and then the value from the tokens.
-/

set_option autoImplicit false

namespace CircuitDag

namespace JsonToken

variable {text rest blanks : List Char} {token : JsonToken} {tokens : List JsonToken}

/-- The numeral of a number is proper, and a string has a text. -/
def Proper : JsonToken → Prop
  | number t => t.Proper
  | string text? => text?.isSome = true
  | _ => True

/-! ## Tokens from texts -/

/-- What a numeral begins with leads to a number. -/
theorem next?_numeral {c : Char} (numeral : c = '-' ∨ c.isDigit = true) :
    next? (c :: rest) = number? (c :: rest) := by
  have other : ∀ d : Char, (d = '-' ∨ d.isDigit = true) = False → ∀ rest', c :: rest = d :: rest' →
      False := by
    intro d neither rest' same
    rw [← neither, ← (List.cons.inj same).1]
    exact numeral
  exact next?.eq_11 _ (other _ (by decide)) (other _ (by decide)) (other _ (by decide))
    (other _ (by decide)) (other _ (by decide)) (other _ (by decide)) (other _ (by decide))
    (fun _ => other _ (by decide) _) (fun _ => other _ (by decide) _)
    (fun _ => other _ (by decide) _)

/-- Every token begins with a character that is no blank. -/
theorem chars_eq_cons (proper : token.Proper) : ∃ c rest, token.chars = c :: rest ∧
    isBlank c = false ∧ ∀ t, token = number t → c = '-' ∨ c.isDigit = true := by
  cases token with
  | number t =>
      have proper : t.Proper := proper
      rw [chars_number]
      cases t.negative with
      | true => exact ⟨'-', _, rfl, rfl, fun _ _ => .inl rfl⟩
      | false =>
          cases shape : t.whole with
          | nil => exact absurd shape proper.nonempty
          | cons c whole =>
              have digit := proper.whole c (by rw [shape]; exact List.mem_cons_self)
              refine ⟨c, _, rfl, ?_, fun _ _ => .inr digit⟩
              by_contra blank
              simp only [isBlank, Bool.or_eq_false_iff, decide_eq_false_iff_not, not_and_or,
                not_not] at blank
              rcases blank with ((rfl | rfl) | rfl) | rfl <;> cases digit
  | bool b => cases b <;> exact ⟨_, _, rfl, rfl, nofun⟩
  | string text? => exact ⟨'"', _, rfl, rfl, nofun⟩
  | openArray | closeArray | openObject | closeObject | colon | comma | null =>
      exact ⟨_, _, rfl, rfl, nofun⟩

/-- A token is read back from its spelling. Only a numeral needs an end. -/
theorem next?_append (proper : token.Proper) (ends : ∀ t, token = number t → EndsNumeral rest) :
    next? (token.chars ++ rest) = some (token, rest) := by
  cases token with
  | number t =>
      obtain ⟨c, text, shape, -, numeral⟩ := chars_eq_cons proper
      have read := number?_append (t := t) proper (ends t rfl)
      rw [shape, List.cons_append] at read ⊢
      rw [next?_numeral (numeral t rfl), read]
  | bool b => cases b <;> rfl
  | string text? =>
      obtain ⟨s, rfl⟩ := Option.isSome_iff_exists.mp proper
      change string? (s.toList.flatMap escapeChar ++ ['"'] ++ rest) = _
      rw [List.append_assoc]
      exact string?_append s rest
  | openArray | closeArray | openObject | closeObject | colon | comma | null => rfl

theorem scan_succ (fuel : Nat) (scanned : scan fuel text = some tokens) :
    scan (fuel + 1) text = some tokens := by
  induction fuel generalizing text tokens with
  | zero =>
      rw [scan] at scanned
      split at scanned
      · next blank =>
          cases scanned
          rw [scan, List.isEmpty_iff.mp blank]
      · cases scanned
  | succ fuel ih =>
      rw [scan] at scanned ⊢
      cases shape : text.dropWhile isBlank with
      | nil =>
          rw [shape] at scanned
          exact scanned
      | cons c rest =>
          rw [shape] at scanned
          simp only [Option.bind_eq_bind, Option.bind_eq_some_iff] at scanned ⊢
          obtain ⟨⟨token, rest'⟩, next, tokens, more, result⟩ := scanned
          exact ⟨(token, rest'), next, tokens, ih more, result⟩

theorem scan_mono {fuel more : Nat} (enough : fuel ≤ more)
    (scanned : scan fuel text = some tokens) :
    scan more text = some tokens := by
  induction enough with
  | refl => exact scanned
  | step _ ih => exact scan_succ _ ih

theorem ofText?_blanks (all : ∀ c ∈ blanks, isBlank c = true)
    (read : ofText? rest = some tokens) : ofText? (blanks ++ rest) = some tokens := by
  have same : ∀ fuel, scan fuel (blanks ++ rest) = scan fuel rest := by
    intro fuel
    cases fuel <;> rw [scan, scan, List.dropWhile_append_of_pos all]
  rw [ofText?, same]
  exact scan_mono (by simp) read

theorem ofText?_append (proper : token.Proper)
    (ends : ∀ t, token = number t → EndsNumeral rest) (read : ofText? rest = some tokens) :
    ofText? (token.chars ++ rest) = some (token :: tokens) := by
  have next := next?_append proper ends
  obtain ⟨c, text, shape, solid, -⟩ := chars_eq_cons proper
  rw [shape, List.cons_append] at next ⊢
  have enough : rest.length ≤ (text ++ rest).length := by simp
  rw [ofText?, List.length_cons, scan, List.dropWhile_cons_of_neg (by simp [solid])]
  simp only [next, Option.bind_eq_bind, Option.bind_some, scan_mono enough read]
  rfl

end JsonToken

/-! ## Layouts -/

/-- Only blanks are put between the tokens of a value. -/
structure JsonLayout.Sound (layout : JsonLayout) : Prop where
  lineBreak : ∀ depth, ∀ c ∈ layout.lineBreak depth, JsonToken.isBlank c = true
  keySeparator : ∃ blanks, layout.keySeparator = ':' :: blanks ∧
    ∀ c ∈ blanks, JsonToken.isBlank c = true

theorem JsonLayout.sound_indented : indented.Sound where
  lineBreak depth c member := by
    rcases List.mem_cons.mp member with rfl | member
    · rfl
    · rw [List.eq_of_mem_replicate member]
      rfl
  keySeparator := ⟨[' '], rfl, by simp [JsonToken.isBlank]⟩

namespace Json

variable {layout : JsonLayout} {rest : List Char} {more : List JsonToken}

/-- All numerals in a value are proper, and all strings have a text. -/
def Proper (value : Json) : Prop := ∀ token ∈ value.tokens, token.Proper

theorem endsNumeral_blanks {blanks : List Char}
    (all : ∀ c ∈ blanks, JsonToken.isBlank c = true) (ends : JsonToken.EndsNumeral rest) :
    JsonToken.EndsNumeral (blanks ++ rest) := by
  cases blanks with
  | nil => exact ends
  | cons c blanks =>
      have blank := all c List.mem_cons_self
      refine JsonToken.endsNumeral_cons ?_
      simp only [JsonToken.isBlank, Bool.or_eq_true, decide_eq_true_eq] at blank
      rcases blank with ((rfl | rfl) | rfl) | rfl <;> decide

/-- A character that is a token by itself. -/
theorem ofText?_cons (token : JsonToken) {c : Char} (single : token.chars = [c])
    (other : ∀ t, token ≠ .number t) (proper : token.Proper)
    (read : JsonToken.ofText? rest = some more) :
    JsonToken.ofText? (c :: rest) = some (token :: more) := by
  have appended := JsonToken.ofText?_append proper (fun t same => absurd same (other t)) read
  rwa [single] at appended

mutual

/-- The tokens of a value are read from its text, followed by those of the rest. -/
theorem ofText?_layOut (sound : layout.Sound) (depth : Nat) (value : Json)
    {rest : List Char} {more : List JsonToken} (proper : ∀ token ∈ value.tokens, token.Proper)
    (ends : JsonToken.EndsNumeral rest)
    (read : JsonToken.ofText? rest = some more) :
    JsonToken.ofText? (value.layOut layout depth ++ rest) = some (value.tokens ++ more) := by
  match value with
  | null => exact JsonToken.ofText?_append (show JsonToken.null.Proper from trivial) nofun read
  | bool b =>
      exact JsonToken.ofText?_append (show (JsonToken.bool b).Proper from trivial) nofun read
  | number t =>
      exact JsonToken.ofText?_append (proper _ List.mem_cons_self) (fun _ _ => ends) read
  | string text? => exact JsonToken.ofText?_append (proper _ List.mem_cons_self) nofun read
  | array [] =>
      have closed := ofText?_cons .closeArray rfl nofun trivial read
      exact ofText?_cons .openArray rfl nofun trivial closed
  | object [] =>
      have closed := ofText?_cons .closeObject rfl nofun trivial read
      exact ofText?_cons .openObject rfl nofun trivial closed
  | array (item :: items) =>
      rw [tokens, List.forall_mem_append, List.forall_mem_cons] at proper
      have closed := JsonToken.ofText?_blanks (sound.lineBreak depth)
        (ofText?_cons .closeArray rfl nofun trivial read)
      have inner := ofText?_layOutItems sound (depth + 1) (item :: items) proper.1.2
        (endsNumeral_blanks (sound.lineBreak depth) (JsonToken.endsNumeral_cons (by decide)))
        closed
      simpa only [layOut, tokens, List.cons_append, List.append_assoc, List.nil_append] using
        ofText?_cons .openArray rfl nofun trivial inner
  | object (member :: members) =>
      rw [tokens, List.forall_mem_append, List.forall_mem_cons] at proper
      have closed := JsonToken.ofText?_blanks (sound.lineBreak depth)
        (ofText?_cons .closeObject rfl nofun trivial read)
      have inner := ofText?_layOutMembers sound (depth + 1) (member :: members) proper.1.2
        (endsNumeral_blanks (sound.lineBreak depth) (JsonToken.endsNumeral_cons (by decide)))
        closed
      simpa only [layOut, tokens, List.cons_append, List.append_assoc, List.nil_append] using
        ofText?_cons .openObject rfl nofun trivial inner

theorem ofText?_layOutItems (sound : layout.Sound) (depth : Nat) (items : List Json)
    {rest : List Char} {more : List JsonToken} (proper : ∀ token ∈ itemTokens items, token.Proper)
    (ends : JsonToken.EndsNumeral rest)
    (read : JsonToken.ofText? rest = some more) :
    JsonToken.ofText? (layOutItems layout depth items ++ rest) =
      some (itemTokens items ++ more) := by
  match items with
  | [] => exact read
  | [item] =>
      rw [itemTokens, List.forall_mem_append] at proper
      have first := ofText?_layOut sound depth item proper.1 ends read
      simpa [layOutItems, itemTokens] using
        JsonToken.ofText?_blanks (sound.lineBreak depth) first
  | item :: next :: items =>
      rw [itemTokens, List.forall_mem_append] at proper
      have others := ofText?_layOutItems sound depth (next :: items)
        (List.forall_mem_cons.mp proper.2).2 ends read
      have first := ofText?_layOut sound depth item proper.1
        (JsonToken.endsNumeral_cons (by decide))
        (ofText?_cons .comma rfl nofun trivial others)
      rw [layOutItems, itemTokens]
      simpa only [List.isEmpty_cons, Bool.false_eq_true, ↓reduceIte, List.append_assoc,
        List.cons_append] using JsonToken.ofText?_blanks (sound.lineBreak depth) first

theorem ofText?_layOutMembers (sound : layout.Sound) (depth : Nat)
    (members : List (JsonText × Json)) {rest : List Char} {more : List JsonToken}
    (proper : ∀ token ∈ memberTokens members, token.Proper) (ends : JsonToken.EndsNumeral rest)
    (read : JsonToken.ofText? rest = some more) :
    JsonToken.ofText? (layOutMembers layout depth members ++ rest) =
      some (memberTokens members ++ more) := by
  match members with
  | [] => exact read
  | [(key, value)] =>
      obtain ⟨blanks, separator, blank⟩ := sound.keySeparator
      simp only [memberTokens, List.isEmpty_nil, ↓reduceIte, List.append_nil, List.forall_mem_cons]
        at proper
      obtain ⟨ofKey, -, ofValue⟩ := proper
      have first := ofText?_layOut sound depth value ofValue ends read
      have colon := ofText?_cons .colon rfl nofun trivial
        (JsonToken.ofText?_blanks blank first)
      have name := JsonToken.ofText?_append ofKey nofun colon
      simpa [layOutMembers, memberTokens, separator, JsonToken.chars] using
        JsonToken.ofText?_blanks (sound.lineBreak depth) name
  | (key, value) :: next :: members =>
      obtain ⟨blanks, separator, blank⟩ := sound.keySeparator
      rw [memberTokens] at proper
      simp only [List.isEmpty_cons, Bool.false_eq_true, ↓reduceIte, List.cons_append,
        List.forall_mem_append, List.forall_mem_cons] at proper
      obtain ⟨ofKey, -, ofValue, -, ofOthers⟩ := proper
      have others := ofText?_layOutMembers sound depth (next :: members) ofOthers ends read
      have first := ofText?_layOut sound depth value ofValue
        (JsonToken.endsNumeral_cons (by decide))
        (ofText?_cons .comma rfl nofun trivial others)
      have colon := ofText?_cons .colon rfl nofun trivial
        (JsonToken.ofText?_blanks blank first)
      have name := JsonToken.ofText?_append ofKey nofun colon
      rw [layOutMembers, memberTokens]
      simpa [separator, JsonToken.chars] using
        JsonToken.ofText?_blanks (sound.lineBreak depth) name

end

theorem tokensOfText?_text (sound : layout.Sound) {value : Json} (proper : value.Proper) :
    JsonToken.ofText? (value.text layout).toList = some value.tokens := by
  have read := ofText?_layOut sound 0 value proper JsonToken.endsNumeral_nil rfl
  rwa [List.append_nil, List.append_nil, ← String.toList_ofList (l := value.layOut layout 0)]
    at read

/-! ## Values from tokens -/

open Assembly (step deliver nextValue firstItem firstKey nextKey)

variable {stack : List OpenValue}

theorem foldlM_firstItem (value : Json) (stack : List OpenValue) (more : List JsonToken) :
    (value.tokens ++ more).foldlM step (firstItem stack) =
      (value.tokens ++ more).foldlM step (nextValue (.array [] :: stack)) := by
  have starts : ∃ token rest, value.tokens = token :: rest ∧ token ≠ .closeArray := by
    cases value <;> rw [tokens] <;> exact ⟨_, _, rfl, nofun⟩
  obtain ⟨token, rest, shape, other⟩ := starts
  rw [shape, List.cons_append, List.foldlM_cons, List.foldlM_cons]
  cases token with
  | closeArray => exact absurd rfl other
  | _ => rfl

mutual

/-- The tokens of a value that is due are assembled to the value. -/
theorem foldlM_tokens (value : Json) (stack : List OpenValue) (more : List JsonToken) :
    (value.tokens ++ more).foldlM step (nextValue stack) =
      more.foldlM step (deliver value stack) := by
  match value with
  | null => rfl
  | bool b => rfl
  | number t => rfl
  | string text? => rfl
  | array [] => rfl
  | object [] => rfl
  | array (item :: items) =>
      have inner := foldlM_itemTokens (item :: items) nofun [] stack more
      simp only [tokens, List.cons_append, List.append_assoc, List.nil_append, List.foldlM_cons]
      change (itemTokens (item :: items) ++ _).foldlM step (firstItem stack) = _
      rw [itemTokens, List.append_assoc] at inner ⊢
      rw [foldlM_firstItem]
      exact inner
  | object ((key, value) :: members) =>
      have inner := foldlM_memberTokens ((key, value) :: members) nofun [] stack more
      simp only [tokens, List.cons_append, List.append_assoc, List.nil_append, List.foldlM_cons]
      exact inner

theorem foldlM_itemTokens (items : List Json) (nonempty : items ≠ []) (done : List Json)
    (stack : List OpenValue) (more : List JsonToken) :
    (itemTokens items ++ .closeArray :: more).foldlM step (nextValue (.array done :: stack)) =
      more.foldlM step (deliver (.array (done.reverse ++ items)) stack) := by
  match items with
  | [] => exact absurd rfl nonempty
  | [item] =>
      rw [itemTokens, List.append_assoc, foldlM_tokens item]
      change more.foldlM step (deliver (.array (item :: done).reverse) stack) = _
      rw [List.reverse_cons]
  | item :: next :: items =>
      have others := foldlM_itemTokens (next :: items) nofun (item :: done) stack more
      rw [List.reverse_cons, List.append_assoc, List.singleton_append] at others
      rw [itemTokens, List.append_assoc, foldlM_tokens item]
      exact others

theorem foldlM_memberTokens (members : List (JsonText × Json)) (nonempty : members ≠ [])
    (done : List (JsonText × Json)) (stack : List OpenValue) (more : List JsonToken) :
    (memberTokens members ++ .closeObject :: more).foldlM step (nextKey done stack) =
      more.foldlM step (deliver (.object (done.reverse ++ members)) stack) := by
  match members with
  | [] => exact absurd rfl nonempty
  | [(key, value)] =>
      rw [memberTokens, List.append_assoc]
      change (value.tokens ++ _).foldlM step (nextValue (.object done key :: stack)) = _
      rw [foldlM_tokens value]
      change more.foldlM step (deliver (.object ((key, value) :: done).reverse) stack) = _
      rw [List.reverse_cons]
  | (key, value) :: next :: members =>
      have others := foldlM_memberTokens (next :: members) nofun
        ((key, value) :: done) stack more
      rw [List.reverse_cons, List.append_assoc, List.singleton_append] at others
      rw [memberTokens, List.append_assoc]
      change (value.tokens ++ _).foldlM step (nextValue (.object done key :: stack)) = _
      rw [foldlM_tokens value]
      exact others

end

theorem ofTokens?_tokens (value : Json) : ofTokens? value.tokens = some value := by
  have assembled := foldlM_tokens value [] []
  rw [List.append_nil] at assembled
  rw [ofTokens?, assembled]
  rfl

/-- A proper value is read back from its text. -/
theorem ofText?_text {layout : JsonLayout} (sound : layout.Sound) {value : Json}
    (proper : value.Proper) : ofText? (value.text layout) = some value := by
  rw [ofText?, tokensOfText?_text sound proper, Option.bind_some, ofTokens?_tokens]

end Json

end CircuitDag
