import CircuitDag.Proofs.Yaml.Lexing
import CircuitDag.Yaml.Block

/-!
# The tokens of block text

The tokens of a tree as it is laid out in lines, and the proof that they are read back from the
text.
-/

set_option autoImplicit false

namespace CircuitDag.Yaml

namespace Block

open Lexer

variable {margin column indent : Nat} {outer : List Nat} {keyAllowed : Bool} {rest : List Char}
  {ts : List Token}

/-! ## Tokens -/

def tagTokens (tag? : Option String) : List Token :=
  match tag? with
  | none => []
  | some tag => [.tag ⟨"!", tag⟩]

mutual

/-- The tokens of a tree behind a key or the hyphen of an item. Behind a key, sequences are not
indented, and so their start and end are no tokens. -/
def tokens (underKey : Bool) : Block → List Token
  | numeral tag? digits => tagTokens tag? ++ [.scalar .plain digits]
  | string tag? text => tagTokens tag? ++ [.scalar (ScalarText.style text) text]
  | sequence tag? [] => tagTokens tag? ++ [.flowSequenceStart, .flowSequenceEnd]
  | sequence tag? (item :: items) =>
      tagTokens tag? ++
        if underKey then itemTokens (item :: items)
        else .blockSequenceStart :: itemTokens (item :: items) ++ [.blockEnd]
  | mapping fields => .blockMappingStart :: fieldTokens fields ++ [.blockEnd]

def itemTokens : List Block → List Token
  | [] => []
  | item :: items => .blockEntry :: item.tokens false ++ itemTokens items

def fieldTokens : List (String × Block) → List Token
  | [] => []
  | (name, value) :: fields =>
      .key :: .scalar .plain name :: .value :: value.tokens true ++ fieldTokens fields

end

/-! ## Sound trees -/

def SoundTag (tag? : Option String) : Prop := ∀ tag, tag? = some tag → IsTagName tag.toList

mutual

/-- A tree that can be laid out: tags and keys are names, numerals need no quotes, and mappings
stand in sequences and are not empty. -/
def Sound (underKey : Bool) : Block → Prop
  | numeral tag? digits => SoundTag tag? ∧ ScalarText.plainAllowed digits.toList = true
  | string tag? _ => SoundTag tag?
  | sequence tag? items => SoundTag tag? ∧ SoundItems items
  | mapping fields => underKey = false ∧ fields ≠ [] ∧ SoundFields fields

def SoundItems : List Block → Prop
  | [] => True
  | item :: items => item.Sound false ∧ SoundItems items

def SoundFields : List (String × Block) → Prop
  | [] => True
  | (name, value) :: fields => IsKeyName name.toList ∧ value.Sound true ∧ SoundFields fields

end

theorem soundTag_none : SoundTag none := fun tag same => by cases same

theorem soundTag_some {tag : String} (named : IsTagName tag.toList) : SoundTag (some tag) := by
  intro _ same
  cases same
  exact named

theorem soundItems_iff {items : List Block} : SoundItems items ↔ ∀ b ∈ items, b.Sound false := by
  induction items with
  | nil => simp [SoundItems]
  | cons item items ih => rw [SoundItems, List.forall_mem_cons, ih]

theorem soundFields_append {fields more : List (String × Block)} :
    SoundFields (fields ++ more) ↔ SoundFields fields ∧ SoundFields more := by
  induction fields with
  | nil => simp [SoundFields]
  | cons field fields ih =>
      rw [List.cons_append, SoundFields, SoundFields, ih, and_assoc, and_assoc]

/-! ## Lexing -/

/-- A tag, or none, in front of a text. -/
theorem scans_tagged {tag? : Option String} (sound : SoundTag tag?)
    (ends : endsWord (rest.head?.getD endMark) = true) (deep : margin ≤ column)
    (scans : ∀ column' allowed, column ≤ column' → Scans margin outer allowed column' rest ts) :
    Scans margin outer keyAllowed column (tagChars tag? ++ rest) (tagTokens tag? ++ ts) := by
  cases tag? with
  | none => exact scans column keyAllowed (Nat.le_refl _)
  | some tag =>
      have later := scans (column + 1 + 1 + tag.toList.length) false (by omega)
      have tagged := (Scans.tag keyAllowed (sound tag rfl) ends
        (Nat.le_succ_of_le deep) later).space
      rwa [String.ofList_toList] at tagged

theorem endsWord_tagChars {tag? : Option String}
    (ends : endsWord (rest.head?.getD endMark) = true) :
    endsWord ((tagChars tag? ++ rest).head?.getD endMark) = true := by
  cases tag? with
  | none => exact ends
  | some tag => rfl

/-- What is written behind a key or a hyphen begins with a space or a line end. -/
theorem endsWord_chars (indent : Nat) (underKey : Bool) (b : Block) (rest : List Char) :
    endsWord ((b.chars indent underKey ++ rest).head?.getD endMark) = true := by
  match b with
  | numeral tag? digits =>
      rw [chars, List.append_assoc, List.append_assoc]
      exact endsWord_tagChars rfl
  | string tag? text =>
      rw [chars, List.append_assoc]
      exact endsWord_tagChars rfl
  | sequence tag? [] =>
      rw [chars, List.append_assoc]
      exact endsWord_tagChars rfl
  | sequence tag? (item :: items) =>
      rw [chars, List.append_assoc]
      exact endsWord_tagChars rfl
  | mapping fields =>
      rw [chars]
      rfl

mutual

/-- The tokens of a tree are taken from its text in a block, behind a key or a hyphen. A mapping
goes on right behind the hyphen, where a key may start. -/
theorem scans_chars (b : Block) (keyAllowed : Bool) {underKey : Bool} {indent column : Nat}
    {outer : List Nat} {rest : List Char} {ts : List Token} (sound : b.Sound underKey)
    (deep : indent < column) (inItem : underKey = false → keyAllowed = true ∧ column = indent + 1)
    (scans : ScansLine (indent + 1) outer rest ts) :
    Scans (indent + 1) outer keyAllowed column (b.chars indent underKey ++ rest)
      (b.tokens underKey ++ ts) := by
  match b with
  | numeral tag? digits =>
      rw [Sound] at sound
      rw [chars, tokens, List.append_assoc, List.append_assoc, List.append_assoc]
      refine scans_tagged sound.1 rfl deep fun column' allowed right => ?_
      have whole := (Scans.plain allowed sound.2 (by omega) (Nat.succ_pos column')
        scans).space
      rw [String.ofList_toList] at whole
      simpa using whole
  | string tag? text =>
      rw [Sound] at sound
      rw [chars, tokens, List.append_assoc, List.append_assoc]
      refine scans_tagged sound rfl deep fun column' allowed right => ?_
      exact (Scans.string (Nat.succ_pos indent) (by omega) scans).space
  | sequence tag? [] =>
      rw [Sound] at sound
      rw [chars, tokens, List.append_assoc, List.append_assoc]
      refine scans_tagged sound.1 rfl deep fun column' allowed right => ?_
      exact (Scans.brackets (by omega) scans).space
  | sequence tag? (item :: items) =>
      rw [Sound, SoundItems] at sound
      obtain ⟨tagged, sound, sounds⟩ := sound
      rw [chars, tokens, List.append_assoc, List.append_assoc]
      refine scans_tagged tagged rfl deep fun column' allowed right => ?_
      cases underKey with
      | true =>
          have lines := scans_items (item :: items)
            (by rw [SoundItems]; exact ⟨sound, sounds⟩) scans
          exact lines.lineEnd
      | false =>
          have others := scans_items items sounds
            (scans.close (indent + 2 + 1) (by omega))
          have first := scans_chars item true sound (Nat.lt_succ_self _)
            (fun _ => ⟨rfl, rfl⟩) others
          have entry := Scans.firstEntry (endsWord_chars _ _ item _) (Nat.le_succ _) first
          have line : Scans (indent + 1) outer true 0 (List.replicate (indent + 2) ' ' ++ _) _ :=
            Scans.spaces (by rwa [Nat.zero_add])
          have lines : Scans (indent + 1) outer allowed column' _ _ := line.lineEnd
          simpa [itemChars, itemTokens, spaces] using lines
  | mapping fields =>
      rw [Sound] at sound
      obtain ⟨rfl, nonempty, sound⟩ := sound
      obtain ⟨rfl, rfl⟩ := inItem rfl
      have lines := scans_firstFields fields nonempty sound (Nat.le_succ _)
        (scans.close (indent + 2 + 1) (by omega))
      rw [chars, tokens]
      simpa using lines.space

theorem scans_items (items : List Block) {indent : Nat} {outer : List Nat} {rest : List Char}
    {ts : List Token} (sound : SoundItems items) (scans : ScansLine (indent + 1) outer rest ts) :
    ScansLine (indent + 1) outer (itemChars indent items ++ rest) (itemTokens items ++ ts) := by
  match items with
  | [] => exact scans
  | item :: items =>
      rw [SoundItems] at sound
      have others := scans_items items sound.2 scans
      have first := scans_chars item true sound.1 (Nat.lt_succ_self indent)
        (fun _ => ⟨rfl, rfl⟩) others
      have entry := Scans.entry (endsWord_chars _ _ item _) first
      have line := entry.line ⟨by decide, by decide, by decide⟩ (Nat.lt_succ_self indent)
      simpa [itemChars, itemTokens, spaces] using line

theorem scans_fields (fields : List (String × Block)) {indent : Nat} {outer : List Nat}
    {rest : List Char} {ts : List Token} (sound : SoundFields fields)
    (scans : ScansLine (indent + 1) outer rest ts) :
    ScansLine (indent + 1) outer (fieldChars indent false fields ++ rest)
      (fieldTokens fields ++ ts) := by
  match fields with
  | [] => exact scans
  | (name, value) :: fields =>
      rw [SoundFields] at sound
      obtain ⟨named, sound, sounds⟩ := sound
      have others := scans_fields fields sounds scans
      have first : Scans _ _ _ (indent + name.toList.length + 1) _ _ :=
        scans_chars value false sound (by omega) (fun same => by cases same) others
      have key := Scans.key named (endsWord_chars _ _ value _) first
      obtain ⟨c, after, shape, begins⟩ := named.begins
      rw [String.ofList_toList, shape] at key
      have line := key.line begins (Nat.lt_succ_self indent)
      simpa [fieldChars, fieldTokens, spaces, shape] using line

/-- The fields of a mapping, the first of which opens its block. -/
theorem scans_firstFields (fields : List (String × Block)) {margin indent : Nat} {outer : List Nat}
    {rest : List Char} {ts : List Token} (nonempty : fields ≠ []) (sound : SoundFields fields)
    (deeper : margin ≤ indent) (scans : ScansLine (indent + 1) (margin :: outer) rest ts) :
    Scans margin outer true indent (fieldChars indent true fields ++ rest)
      (.blockMappingStart :: (fieldTokens fields ++ ts)) := by
  match fields with
  | [] => exact absurd rfl nonempty
  | (name, value) :: fields =>
      rw [SoundFields] at sound
      obtain ⟨named, sound, sounds⟩ := sound
      have others := scans_fields fields sounds scans
      have first : Scans _ _ _ (indent + name.toList.length + 1) _ _ :=
        scans_chars value false sound (by omega) (fun same => by cases same) others
      have key := Scans.firstKey named (endsWord_chars _ _ value _) deeper first
      rw [String.ofList_toList] at key
      simpa [fieldChars, fieldTokens] using key

end

/-! ## Characters -/

theorem printed_tagChars {tag? : Option String} (sound : SoundTag tag?) :
    Printed (tagChars tag?) := by
  cases tag? with
  | none => exact printed_nil
  | some tag =>
      have named := (sound tag rfl).2
      exact printed_cons.mpr ⟨by decide, printed_cons.mpr ⟨by decide, fun c member =>
        ScalarText.isPrintable_of_isWordChar (isWordChar_of_isNameChar (named c member))⟩⟩

theorem printed_plain {text : List Char} (allowed : ScalarText.plainAllowed text = true) :
    Printed text := (ScalarText.coherent_of_plainAllowed allowed).printable

mutual

theorem printed_chars (b : Block) {underKey : Bool} {indent : Nat} (sound : b.Sound underKey) :
    Printed (b.chars indent underKey) := by
  have space : ScalarText.isPrintable ' ' = true := by decide
  have lineEnd : ScalarText.isPrintable '\n' = true := by decide
  match b with
  | numeral tag? digits =>
      rw [Sound] at sound
      exact printed_append.mpr ⟨printed_append.mpr ⟨printed_tagChars sound.1,
        printed_cons.mpr ⟨space, printed_plain sound.2⟩⟩, printed_cons.mpr ⟨lineEnd, printed_nil⟩⟩
  | string tag? text =>
      rw [Sound] at sound
      exact printed_append.mpr ⟨printed_tagChars sound,
        printed_cons.mpr ⟨space, ScalarText.printed_write _ text⟩⟩
  | sequence tag? [] =>
      rw [Sound] at sound
      exact printed_append.mpr ⟨printed_tagChars sound.1, printed_cons.mpr ⟨space,
        printed_cons.mpr ⟨by decide, printed_cons.mpr ⟨by decide,
          printed_cons.mpr ⟨lineEnd, printed_nil⟩⟩⟩⟩⟩
  | sequence tag? (item :: items) =>
      rw [Sound] at sound
      exact printed_append.mpr ⟨printed_tagChars sound.1,
        printed_cons.mpr ⟨lineEnd, printed_itemChars (item :: items) sound.2⟩⟩
  | mapping fields =>
      rw [Sound] at sound
      exact printed_cons.mpr ⟨space, printed_fieldChars fields sound.2.2⟩

theorem printed_itemChars (items : List Block) {indent : Nat} (sound : SoundItems items) :
    Printed (itemChars indent items) := by
  match items with
  | [] => exact printed_nil
  | item :: items =>
      rw [SoundItems] at sound
      rw [itemChars]
      exact printed_append.mpr ⟨printed_append.mpr ⟨printed_spaces indent,
        printed_cons.mpr ⟨by decide, printed_chars item sound.1⟩⟩, printed_itemChars items sound.2⟩

theorem printed_fieldChars (fields : List (String × Block)) {indent : Nat} {first : Bool}
    (sound : SoundFields fields) : Printed (fieldChars indent first fields) := by
  match fields with
  | [] => exact printed_nil
  | (name, value) :: fields =>
      rw [SoundFields] at sound
      obtain ⟨named, sound, sounds⟩ := sound
      have start : Printed (if first then [] else spaces indent) := by
        split
        · exact printed_nil
        · exact printed_spaces indent
      rw [fieldChars]
      exact printed_append.mpr ⟨printed_append.mpr ⟨printed_append.mpr ⟨start,
        printed_plain named.allowed⟩, printed_cons.mpr ⟨by decide, printed_chars value sound⟩⟩,
          printed_fieldChars fields sounds⟩

end

/-! ## Documents -/

theorem tokens?_documentText {fields : List (String × Block)} (nonempty : fields ≠ [])
    (sound : SoundFields fields) :
    tokens? (documentText fields) = some (tokens false (mapping fields)) := by
  have scans := scans_firstFields fields nonempty sound (Nat.zero_le 0) scansLine_nil
  rw [List.append_nil] at scans
  have here : Source.At (Source.locate 0 0 0 (fieldChars 0 true fields)) 0
      (fieldChars 0 true fields) := ⟨0, 0, rfl⟩
  have enough : (fieldChars 0 true fields).length <
      List.length (Source.locate 0 0 0 (fieldChars 0 true fields)) + 1 := by
    rw [here.length_eq]
    omega
  have run := @scans _ #[] _ _ here enough optional_none
  obtain ⟨l, stopped, taken⟩ := Option.map_eq_some_iff.mp run
  rw [tokens?, documentText, ofText?_printed (printed_fieldChars fields sound)]
  simp only [Option.bind_eq_bind, Option.bind_some]
  rw [show Lexer.run? _ {} _ = some l from stopped, Option.bind_some, taken, tokens]
  rfl

end Block

end CircuitDag.Yaml
