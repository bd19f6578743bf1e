import CircuitDag.Proofs.Yaml.Blocks
import CircuitDag.Yaml.Document

/-!
# The documents of block text

The node that a tree of mappings and sequences stands for, and the proof that the grammar puts it
together from the tokens of the tree. Nothing in such a document has an anchor.
-/

set_option autoImplicit false

namespace CircuitDag.Yaml

namespace Block

variable {Anchor : Type} {rest : List Token}

/-! ## Nodes -/

/-- The label of a tree with a private tag, or without one. -/
def label (tag? : Option String) : Label Anchor := { tag? := tag?.map ("!" ++ ·) }

mutual

def node : Block → Node Anchor
  | numeral tag? digits => .scalar (label tag?) .plain digits
  | string tag? text => .scalar (label tag?) (ScalarText.style text) text
  | sequence tag? items => .sequence (label tag?) (itemNodes items)
  | mapping fields => .mapping {} (fieldNodes fields)

def itemNodes : List Block → List (Node Anchor)
  | [] => []
  | item :: items => item.node :: itemNodes items

def fieldNodes : List (String × Block) → List (Node Anchor × Node Anchor)
  | [] => []
  | (name, value) :: fields => (.scalar {} .plain name, value.node) :: fieldNodes fields

end

theorem itemNodes_eq_map (items : List Block) :
    (itemNodes items : List (Node Anchor)) = items.map node := by
  induction items with
  | nil => rfl
  | cons item items ih => rw [itemNodes, ih, List.map_cons]

/-! ## Reading nodes -/

/-- A node starts with no token that ends what is in front of it, so it is not left out. -/
theorem exists_tokens (b : Block) (underKey : Bool) (rest : List Token) :
    ∃ token others, b.tokens underKey ++ rest = token :: others ∧ endsPairPart token = false ∧
      (underKey = false → endsItem token = false) := by
  have tagged : ∀ (tag? : Option String) {first : Token} {more : List Token},
      endsPairPart first = false → (underKey = false → endsItem first = false) →
      ∃ token others, tagTokens tag? ++ first :: more = token :: others ∧
        endsPairPart token = false ∧ (underKey = false → endsItem token = false) := by
    intro tag? first more pair item
    cases tag? with
    | none => exact ⟨first, more, rfl, pair, item⟩
    | some tag => exact ⟨_, _, rfl, rfl, fun _ => rfl⟩
  match b with
  | numeral tag? digits | string tag? text =>
      rw [tokens, List.append_assoc]
      exact tagged tag? rfl fun _ => rfl
  | sequence tag? [] =>
      rw [tokens, List.append_assoc]
      exact tagged tag? rfl fun _ => rfl
  | sequence tag? (item :: items) =>
      rw [tokens, List.append_assoc]
      cases underKey with
      | true => exact tagged tag? rfl fun same => by cases same
      | false => exact tagged tag? rfl fun _ => rfl
  | mapping fields =>
      rw [tokens]
      exact ⟨_, _, rfl, rfl, fun _ => rfl⟩

variable {fuel : Nat} {block indentless : Bool}

theorem node?_blockSequence (tag? : Option String) :
    node? defaultHandles (fuel + 1) true indentless
        (tagTokens tag? ++ .blockSequenceStart :: rest) =
      (blockItems? defaultHandles fuel rest).bind fun read =>
        some (.sequence (label tag?) read.1, read.2) := by
  cases tag? <;> rfl

theorem node?_indentless (tag? : Option String) :
    node? defaultHandles (fuel + 1) block true (tagTokens tag? ++ .blockEntry :: rest) =
      (indentlessItems? defaultHandles fuel (.blockEntry :: rest)).bind fun read =>
        some (.sequence (label tag?) read.1, read.2) := by
  cases tag? <;> rfl

theorem node?_blockMapping :
    node? defaultHandles (fuel + 1) true indentless (.blockMappingStart :: rest) =
      (blockPairs? defaultHandles fuel rest).bind fun read =>
        some (.mapping {} read.1, read.2) := rfl

theorem blockPairs?_pair (name : String) :
    blockPairs? defaultHandles (fuel + 3)
        (.key :: .scalar .plain name :: .value :: rest) =
      (optionalNode? defaultHandles endsPairPart (fuel + 1) true true rest).bind fun value =>
        (blockPairs? defaultHandles (fuel + 2) value.2).bind fun pairs =>
          some ((.scalar {} .plain name, value.1) :: pairs.1, pairs.2) := rfl

theorem optionalNode?_of_not_stop {stop : Token → Bool} {first : Token}
    (goes : stop first = false) :
    optionalNode? defaultHandles stop (fuel + 1) block indentless (first :: rest) =
      node? defaultHandles fuel block indentless (first :: rest) := by
  rw [optionalNode?]
  simp [goes]

mutual

/-- A node is put together from the tokens of a tree; every token allows for three nested rules. -/
theorem node?_tokens (b : Block) {underKey : Bool} {fuel : Nat} {rest : List Token}
    (enough : 3 * (b.tokens underKey).length + 1 < fuel)
    (ends : underKey = true → rest.head? ≠ some .blockEntry) :
    node? defaultHandles fuel true underKey (b.tokens underKey ++ rest) = some (b.node, rest) := by
  obtain ⟨fuel, rfl⟩ := Nat.exists_eq_add_one_of_ne_zero (Nat.ne_zero_of_lt enough)
  match b with
  | numeral tag? digits | string tag? text =>
      rw [tokens, node]
      cases tag? <;> rfl
  | sequence tag? [] =>
      rw [tokens, List.length_append, List.length_cons, List.length_singleton] at enough
      obtain ⟨fuel, rfl⟩ := Nat.exists_eq_add_one_of_ne_zero (show fuel ≠ 0 by omega)
      rw [tokens, node]
      cases tag? <;> rfl
  | sequence tag? (item :: items) =>
      rw [tokens, List.length_append] at enough
      rw [tokens, node, List.append_assoc]
      cases underKey with
      | true =>
          simp only [↓reduceIte] at enough
          have read : indentlessItems? defaultHandles fuel (itemTokens (item :: items) ++ rest) =
              some (itemNodes (item :: items), rest) :=
            indentlessItems?_itemTokens _ (by omega) (ends rfl)
          simp only [↓reduceIte]
          rw [itemTokens, List.cons_append, List.cons_append] at read ⊢
          rw [node?_indentless, read, Option.bind_some]
      | false =>
          simp only [Bool.false_eq_true, ↓reduceIte, List.length_cons, List.length_append,
            List.length_nil] at enough
          have read : blockItems? defaultHandles fuel
              (itemTokens (item :: items) ++ .blockEnd :: rest) =
              some (itemNodes (item :: items), rest) := blockItems?_itemTokens _ (by omega)
          simp only [Bool.false_eq_true, ↓reduceIte, List.cons_append, List.append_assoc,
            List.nil_append]
          rw [node?_blockSequence, read, Option.bind_some]
  | mapping fields =>
      rw [tokens, List.length_append, List.length_cons, List.length_singleton] at enough
      have read : blockPairs? defaultHandles fuel (fieldTokens fields ++ .blockEnd :: rest) =
          some (fieldNodes fields, rest) := blockPairs?_fieldTokens fields (by omega)
      rw [tokens, node, List.cons_append, List.cons_append, List.append_assoc,
        List.singleton_append, node?_blockMapping, read, Option.bind_some]

theorem blockItems?_itemTokens (items : List Block) {fuel : Nat} {rest : List Token}
    (enough : 3 * (itemTokens items).length < fuel) :
    blockItems? defaultHandles fuel (itemTokens items ++ .blockEnd :: rest) =
      some (itemNodes items, rest) := by
  obtain ⟨fuel, rfl⟩ := Nat.exists_eq_add_one_of_ne_zero (Nat.ne_zero_of_lt enough)
  match items with
  | [] => rfl
  | item :: items =>
      rw [itemTokens, List.length_append, List.length_cons] at enough
      obtain ⟨fuel, rfl⟩ := Nat.exists_eq_add_one_of_ne_zero (show fuel ≠ 0 by omega)
      have read : node? defaultHandles fuel true false
          (item.tokens false ++ (itemTokens items ++ .blockEnd :: rest)) = _ :=
        node?_tokens item (by omega) (fun same => by cases same)
      have others : blockItems? defaultHandles (fuel + 1) (itemTokens items ++ .blockEnd :: rest) =
          _ := blockItems?_itemTokens items (by omega)
      obtain ⟨first, more, shape, -, goes⟩ :=
        exists_tokens item false (itemTokens items ++ .blockEnd :: rest)
      rw [itemTokens, List.cons_append, List.cons_append, List.append_assoc, blockItems?]
      simp only
      rw [shape] at read ⊢
      rw [optionalNode?_of_not_stop (goes rfl), read, Option.bind_eq_bind, Option.bind_some]
      simp only
      rw [others]
      rfl

theorem indentlessItems?_itemTokens (items : List Block) {fuel : Nat} {rest : List Token}
    (enough : 3 * (itemTokens items).length < fuel)
    (ends : rest.head? ≠ some .blockEntry) :
    indentlessItems? defaultHandles fuel (itemTokens items ++ rest) =
      some (itemNodes items, rest) := by
  obtain ⟨fuel, rfl⟩ := Nat.exists_eq_add_one_of_ne_zero (Nat.ne_zero_of_lt enough)
  match items with
  | [] =>
      rw [itemTokens, List.nil_append, indentlessItems?]
      · rfl
      · rintro others rfl
        exact ends rfl
  | item :: items =>
      rw [itemTokens, List.length_append, List.length_cons] at enough
      obtain ⟨fuel, rfl⟩ := Nat.exists_eq_add_one_of_ne_zero (show fuel ≠ 0 by omega)
      have read : node? defaultHandles fuel true false
          (item.tokens false ++ (itemTokens items ++ rest)) = _ :=
        node?_tokens item (by omega) (fun same => by cases same)
      have others : indentlessItems? defaultHandles (fuel + 1) (itemTokens items ++ rest) = _ :=
        indentlessItems?_itemTokens items (by omega) ends
      obtain ⟨first, more, shape, pair, item⟩ := exists_tokens item false (itemTokens items ++ rest)
      have goes : endsIndentlessItem first = false := by
        rw [endsIndentlessItem, pair, item rfl]
        rfl
      rw [itemTokens, List.cons_append, List.cons_append, List.append_assoc, indentlessItems?]
      simp only
      rw [shape] at read ⊢
      rw [optionalNode?_of_not_stop goes, read, Option.bind_eq_bind, Option.bind_some]
      simp only
      rw [others]
      rfl

theorem blockPairs?_fieldTokens (fields : List (String × Block)) {fuel : Nat} {rest : List Token}
    (enough : 3 * (fieldTokens fields).length < fuel) :
    blockPairs? defaultHandles fuel (fieldTokens fields ++ .blockEnd :: rest) =
      some (fieldNodes fields, rest) := by
  obtain ⟨fuel, rfl⟩ := Nat.exists_eq_add_one_of_ne_zero (Nat.ne_zero_of_lt enough)
  match fields with
  | [] => rfl
  | (name, value) :: fields =>
      rw [fieldTokens, List.length_append, List.length_cons, List.length_cons,
        List.length_cons] at enough
      obtain ⟨fuel, rfl⟩ := Nat.exists_eq_add_of_le' (show 2 ≤ fuel by omega)
      have ends : (fieldTokens fields ++ .blockEnd :: rest).head? ≠ some .blockEntry := by
        cases fields <;> exact fun same => by cases same
      have read : node? defaultHandles fuel true true
          (value.tokens true ++ (fieldTokens fields ++ .blockEnd :: rest)) = _ :=
        node?_tokens value (by omega) fun _ => ends
      have others : blockPairs? defaultHandles (fuel + 2)
          (fieldTokens fields ++ .blockEnd :: rest) =
          _ := blockPairs?_fieldTokens fields (by omega)
      obtain ⟨first, more, shape, goes, -⟩ :=
        exists_tokens value true (fieldTokens fields ++ .blockEnd :: rest)
      rw [fieldTokens, List.cons_append, List.cons_append, List.cons_append, List.cons_append,
        List.cons_append, List.cons_append, List.append_assoc, blockPairs?_pair]
      rw [shape] at read ⊢
      rw [optionalNode?_of_not_stop goes, read, Option.bind_some, others]
      rfl

end

/-! ## Documents -/

theorem ofTokens?_tokens (fields : List (String × Block)) :
    Node.ofTokens? (tokens false (mapping fields)) = some (mapping fields).node := by
  have read : root? [] (tokens false (mapping fields)) = some ((mapping fields).node, []) := by
    have all : node? defaultHandles (3 * (tokens false (mapping fields)).length + 3) true false
        (tokens false (mapping fields) ++ []) = _ :=
      node?_tokens (mapping fields) (by omega) (fun same => by cases same)
    rwa [List.append_nil] at all
  rw [tokens, List.cons_append] at read ⊢
  rw [Node.ofTokens?]
  simp [readDirectives?, read]

/-! ## Anchors -/

mutual

/-- Nothing is numbered in a document without anchors. -/
theorem numbered_node (b : Block) : (b.node : Node String).numbered = pure b.node := by
  match b with
  | numeral tag? digits | string tag? text => rfl
  | sequence tag? items =>
      rw [node, Node.numbered, numberedItems_itemNodes items]
      rfl
  | mapping fields =>
      rw [node, Node.numbered, numberedPairs_fieldNodes fields]
      rfl

theorem numberedItems_itemNodes (items : List Block) :
    Node.numberedItems (itemNodes items) = pure (itemNodes items) := by
  match items with
  | [] => rfl
  | item :: items =>
      rw [itemNodes, Node.numberedItems, numbered_node item, numberedItems_itemNodes items]
      rfl

theorem numberedPairs_fieldNodes (fields : List (String × Block)) :
    Node.numberedPairs (fieldNodes fields) = pure (fieldNodes fields) := by
  match fields with
  | [] => rfl
  | (name, value) :: fields =>
      rw [fieldNodes, Node.numberedPairs, numbered_node value, numberedPairs_fieldNodes fields]
      rfl

end

/-- A document is read from its text. -/
theorem ofText?_documentText {fields : List (String × Block)} (nonempty : fields ≠ [])
    (sound : SoundFields fields) :
    Document.ofText? (documentText fields) = some ⟨(mapping fields).node⟩ := by
  rw [Document.ofText?, tokens?_documentText nonempty sound]
  simp only [Option.bind_eq_bind, Option.bind_some, ofTokens?_tokens, numbered_node]
  rfl

end Block

end CircuitDag.Yaml
