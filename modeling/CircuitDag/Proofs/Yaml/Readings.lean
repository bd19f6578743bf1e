import CircuitDag.Proofs.Yaml.Scalars
import CircuitDag.Proofs.Yaml.Trees
import CircuitDag.Yaml.Value

/-!
# Reading the documents of block text

Documents without references are read without a count of references, and so what is read from them
is lifted from a partial function.
-/

set_option autoImplicit false

namespace CircuitDag.Yaml

/-- The tag in front of a tree. -/
def Block.tag? : Block → Option String
  | numeral tag? _ | string tag? _ | sequence tag? _ => tag?
  | mapping _ => none

namespace Reading

variable {α β : Type}

/-! ## Lifted values -/

theorem lift_some (a : α) : lift (some a) = pure a := rfl

theorem failure_bind (f : α → Reading β) : (failure : Reading α) >>= f = failure := rfl

/-- A value in front of a list of values. -/
theorem lift_cons (first? : Option α) (rest? : Option (List α)) :
    (do return (← lift first?) :: (← lift rest?)) =
      lift (do return (← first?) :: (← rest?)) := by
  cases first? with
  | none => rfl
  | some first => cases rest? <;> rfl

theorem mapM_eq_pure {read : α → Reading β} {f : α → β} {items : List α}
    (each : ∀ a ∈ items, read a = pure (f a)) : items.mapM read = pure (items.map f) := by
  induction items with
  | nil => rfl
  | cons a items ih =>
      rw [List.forall_mem_cons] at each
      rw [List.mapM_cons, each.1, ih each.2, pure_bind, pure_bind]
      rfl

/-! ## Scalars -/

theorem follow_node (b : Block) : follow b.node = pure b.node := by
  cases b <;> rw [Block.node] <;> rfl

theorem text_string (tag? : Option String) (s : String) :
    text (Block.string tag? s).node = pure s := by
  rw [Block.node]
  rfl

theorem nat_ofNat {n : Nat} (small : n < UInt64.size) : nat (Block.ofNat n).node = pure n := by
  rw [Block.ofNat, nat, follow_node, Block.node]
  simp [isNumeral, ScalarValue.nat?_toDigits, lift_some, small]

theorem float_ofNumber {x : Binary64} (survives : x.SurvivesYaml) :
    float (Block.ofNumber none x).node = pure x := by
  rw [Block.ofNumber, float, follow_node, Block.node, pure_bind]
  simp only [isNumeral]
  change lift (ScalarValue.float? (decimalFormat.write x)) = _
  rw [show ScalarValue.float? (decimalFormat.write x) = some x from survives, lift_some]

/-! ## Collections -/

theorem list_sequence (item : Node Nat → Reading α) (tag? : Option String) (items : List Block) :
    list item (Block.sequence tag? items).node = items.mapM fun b => item b.node := by
  rw [list, follow_node, Block.node, pure_bind, Block.itemNodes_eq_map]
  exact List.mapM_map

theorem namedPairs_fieldNodes (members : List (String × Block)) :
    namedPairs (Block.fieldNodes members) =
      pure (members.map fun member => (member.1, member.2.node)) := by
  induction members with
  | nil => rfl
  | cons member members ih =>
      rw [namedPairs] at ih ⊢
      rw [Block.fieldNodes, List.mapM_cons, ih]
      rfl

theorem fields_mapping (names : List String) (members : List (String × Block)) :
    fields names (Block.mapping members).node =
      names.mapM (field? (members.map fun member => (member.1, member.2.node))) := by
  rw [fields, follow_node, Block.node, pure_bind]
  simp only [namedPairs_fieldNodes, pure_bind]

end Reading

namespace Value

variable {room : Nat}

/-! ## Values -/

theorem ofNode_scalar (style : ScalarStyle) (text : String) :
    ofNode room (.scalar {} style text) = Reading.lift (ofScalar? {} style text) := by
  cases room <;> rfl

theorem ofNode_ofNumber {x : Binary64} (survives : x.SurvivesYaml) :
    ofNode room (Block.ofNumber none x).node = pure (scalar (.float x)) := by
  have plain : ScalarValue.ofPlain (decimalFormat.write x) = .float x :=
    (looksFractional_write x).ofPlain survives
  rw [Block.ofNumber, Block.node]
  change ofNode room (.scalar {} .plain (decimalFormat.write x)) = _
  rw [ofNode_scalar, ofScalar?, ScalarValue.ofScalar?]
  simp [plain, fitsWord, Reading.lift_some]

theorem ofNode_string (text : String) :
    ofNode room (Block.string none text).node = pure (scalar (.string text)) := by
  rw [Block.node]
  change ofNode room (.scalar {} (ScalarText.style text) text) = _
  rw [ofNode_scalar, ofScalar?, ScalarValue.ofScalar?]
  by_cases plain : ScalarText.style text = .plain
  · simp [plain, ofPlain_of_style plain, fitsWord, Reading.lift_some]
  · simp [plain, fitsWord, Reading.lift_some]

theorem isPrivate_label (tag : String) : isPrivate (Block.label (some tag)) = true := by
  simp [isPrivate, Block.label]

/-- Trees with a private tag have no value. -/
theorem ofNode_tagged {b : Block} {tag : String} (tagged : b.tag? = some tag) :
    ofNode room b.node = failure := by
  have secret := isPrivate_label tag
  cases b with
  | numeral _ digits | string _ text | sequence _ items =>
      obtain rfl : _ = some tag := tagged
      rw [Block.node]
      cases room <;> simp [ofNode, Reading.follow, secret]
  | mapping fields => cases tagged

end Value

end CircuitDag.Yaml
