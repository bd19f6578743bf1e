import CircuitDag.Yaml.Document

/-!
# YAML values

The value of a node whose type is not known beforehand. Private tags, which start with an
exclamation mark, have no value, and integers must fit sixty-four bits.
-/

set_option autoImplicit false

namespace CircuitDag.Yaml

inductive Value where
  | scalar (value : ScalarValue)
  | sequence (items : List Value)
  | mapping (pairs : List (Value × Value))

namespace Value

/-- Whether a label has a private tag. -/
def isPrivate (label : Label Nat) : Bool := label.tag?.any fun tag => tag.startsWith "!"

/-- Whether a scalar is no integer, or one that fits sixty-four bits. -/
def fitsWord : ScalarValue → Bool
  | .nat n => n < UInt64.size
  | .negated n => n ≤ Int64.minValue.toInt.natAbs
  | _ => true

/-- The value of a scalar, unless it is an integer of more than sixty-four bits. -/
def ofScalar? (label : Label Nat) (style : ScalarStyle) (text : String) : Option Value := do
  let value ← ScalarValue.ofScalar? label.tag? style text
  if fitsWord value then some (scalar value) else none

/-- The value of a node whose collections are nested at most `room` deep. -/
def ofNode : (room : Nat) → Node Nat → Reading Value
  | 0, node => do
      match ← Reading.follow node with
      | .scalar label style text =>
          if isPrivate label then failure
          Reading.lift (ofScalar? label style text)
      | _ => failure
  | room + 1, node => do
      match ← Reading.follow node with
      | .scalar label style text =>
          if isPrivate label then failure
          Reading.lift (ofScalar? label style text)
      | .sequence label items =>
          if isPrivate label then failure
          return sequence (← items.mapM (ofNode room))
      | .mapping label pairs =>
          if isPrivate label then failure
          return mapping (← pairs.mapM fun (key, value) => do
            let key ← ofNode room key
            return (key, ← ofNode room value))
      | .reference _ => failure

end Value

end CircuitDag.Yaml
