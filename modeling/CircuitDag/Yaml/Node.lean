import CircuitDag.Yaml.Token

/-!
# YAML nodes

The tree of a YAML document. Anchors are either names, as they are written, or numbers, which tell
anchors of one name apart.
-/

set_option autoImplicit false

namespace CircuitDag.Yaml

/-- What can stand before the content of a node. -/
structure Label (Anchor : Type) where
  anchor? : Option Anchor := none
  tag? : Option String := none

def Label.isEmpty {Anchor : Type} (label : Label Anchor) : Bool :=
  label.anchor?.isNone && label.tag?.isNone

inductive Node (Anchor : Type) where
  /-- A reference to the node that has an anchor. -/
  | reference (anchor : Anchor)
  | scalar (label : Label Anchor) (style : ScalarStyle) (text : String)
  | sequence (label : Label Anchor) (items : List (Node Anchor))
  | mapping (label : Label Anchor) (pairs : List (Node Anchor × Node Anchor))

namespace Node

variable {Anchor : Type}

def missing : Node Anchor := scalar {} .plain ""

mutual

/-- How many marks a tree makes when it is listed: one for each leaf, and two for each
collection. -/
def size : Node Anchor → Nat
  | reference _ | scalar .. => 1
  | sequence _ items => sizeOfItems items + 2
  | mapping _ pairs => sizeOfPairs pairs + 2

def sizeOfItems : List (Node Anchor) → Nat
  | [] => 0
  | item :: items => item.size + sizeOfItems items

def sizeOfPairs : List (Node Anchor × Node Anchor) → Nat
  | [] => 0
  | (key, value) :: pairs => key.size + value.size + sizeOfPairs pairs

end

/-- A node itself, if it has an anchor. -/
def labelled (label : Label Anchor) (node : Node Anchor) : List (Anchor × Node Anchor) :=
  match label.anchor? with
  | some anchor => [(anchor, node)]
  | none => []

mutual

/-- The nodes with an anchor, in the order in which they start. -/
def anchored : Node Anchor → List (Anchor × Node Anchor)
  | reference _ => []
  | scalar label style text => labelled label (scalar label style text)
  | sequence label items => labelled label (sequence label items) ++ anchoredItems items
  | mapping label pairs => labelled label (mapping label pairs) ++ anchoredPairs pairs

def anchoredItems : List (Node Anchor) → List (Anchor × Node Anchor)
  | [] => []
  | item :: items => item.anchored ++ anchoredItems items

def anchoredPairs : List (Node Anchor × Node Anchor) → List (Anchor × Node Anchor)
  | [] => []
  | (key, value) :: pairs => key.anchored ++ value.anchored ++ anchoredPairs pairs

end

end Node

/-! ## Numbering anchors -/

abbrev AnchorNumbers := List (String × Nat)

namespace AnchorNumbers

/-- Gives a name the number of names known so far. A name that is known gets a new number but is
counted once, so the next new name gets the same one. -/
def define (names : AnchorNumbers) (name : String) : AnchorNumbers :=
  (name, names.length) :: names.filter (·.1 != name)

end AnchorNumbers

namespace Node

def numberLabel (label : Label String) : StateT AnchorNumbers Option (Label Nat) := do
  match label.anchor? with
  | none => return { tag? := label.tag? }
  | some name =>
      let number := (← get).length
      modify fun names => names.define name
      return { anchor? := some number, tag? := label.tag? }

mutual

/-- Replaces the names of anchors by numbers. A reference means the anchor of its name that was
defined last before it; there has to be one. -/
def numbered : Node String → StateT AnchorNumbers Option (Node Nat)
  | reference name => do
      match (← get).lookup name with
      | some number => return reference number
      | none => failure
  | scalar label style text => do return scalar (← numberLabel label) style text
  | sequence label items => do
      let label ← numberLabel label
      return sequence label (← numberedItems items)
  | mapping label pairs => do
      let label ← numberLabel label
      return mapping label (← numberedPairs pairs)

def numberedItems : List (Node String) → StateT AnchorNumbers Option (List (Node Nat))
  | [] => return []
  | item :: items => do
      let item ← numbered item
      return item :: (← numberedItems items)

def numberedPairs :
    List (Node String × Node String) → StateT AnchorNumbers Option (List (Node Nat × Node Nat))
  | [] => return []
  | (key, value) :: pairs => do
      let key ← numbered key
      let value ← numbered value
      return (key, value) :: (← numberedPairs pairs)

end

end Node

end CircuitDag.Yaml
