import CircuitDag.Yaml.Grammar
import CircuitDag.Yaml.Lexer
import CircuitDag.Yaml.Scalar

/-!
# Reading YAML documents

A document is read by going down from its root and following references to anchors. How often
references are followed is limited, and so is the nesting of what is read.
-/

set_option autoImplicit false

namespace CircuitDag.Yaml

/-- A document whose anchors are numbered. -/
structure Document where
  root : Node Nat

namespace Document

/-- The node that a number stands for: the last one in the document that has it. -/
def anchored? (d : Document) (anchor : Nat) : Option (Node Nat) :=
  d.root.anchored.reverse.lookup anchor

/-- How often references may be followed. -/
def maxReferences (d : Document) : Nat := 100 * d.root.size

def ofText? (text : String) : Option Document := do
  let root ← Node.ofTokens? (← tokens? text)
  let (root, _) ← root.numbered.run []
  return ⟨root⟩

end Document

/-- How deeply the collections that are read may be nested. -/
def maxDepth : Nat := 128

/-- A step of reading a document, which counts the references that have been followed. -/
abbrev Reading := ReaderT Document (StateT Nat Option)

namespace Reading

/-- Reads the root of a document. -/
def run? {α : Type} (read : Node Nat → Reading α) (text : String) : Option α := do
  let d ← Document.ofText? text
  let (a, _) ← ((read d.root).run d).run 0
  return a

def lift {α : Type} (value? : Option α) : Reading α :=
  match value? with
  | some a => return a
  | none => failure

/-- The node itself, or the one that it refers to. -/
def follow (node : Node Nat) : Reading (Node Nat) := do
  match node with
  | .reference anchor =>
      let count ← getThe Nat
      if count < (← read).maxReferences then
        set (count + 1)
        lift ((← read).anchored? anchor)
      else failure
  | node => return node

/-! ## Typed values -/

/-- The text of a scalar, however it is written. -/
def text (node : Node Nat) : Reading String := do
  match ← follow node with
  | .scalar _ _ text => return text
  | _ => failure

def nat (node : Node Nat) : Reading Nat := do
  match ← follow node with
  | .scalar label style text =>
      if !isNumeral "int" label.tag? style then failure
      let n ← lift (ScalarValue.nat? text.toList)
      if n < UInt64.size then return n else failure
  | _ => failure

def float (node : Node Nat) : Reading Binary64 := do
  match ← follow node with
  | .scalar label style text =>
      if !isNumeral "float" label.tag? style then failure
      lift (ScalarValue.float? text)
  | _ => failure

/-- A list; nothing at all is the empty list. -/
def list {α : Type} (item : Node Nat → Reading α) (node : Node Nat) : Reading (List α) := do
  match ← follow node with
  | .sequence _ items => items.mapM item
  | .scalar _ .plain "" => return []
  | _ => failure

def namedPairs (pairs : List (Node Nat × Node Nat)) : Reading (List (String × Node Nat)) :=
  pairs.mapM fun (key, value) => do return (← text key, value)

/-- The value of a field, if there is one; it must not be given twice. -/
def field? (pairs : List (String × Node Nat)) (name : String) : Reading (Option (Node Nat)) :=
  match pairs.filter (·.1 == name) with
  | [] => return none
  | [(_, value)] => return some value
  | _ => failure

/-- The values of the fields of a record, in the given order. Other pairs are not read. -/
def fields (names : List String) (node : Node Nat) : Reading (List (Option (Node Nat))) := do
  match ← follow node with
  | .mapping _ pairs => do
      let pairs ← namedPairs pairs
      names.mapM (field? pairs)
  | .scalar _ .plain "" => return names.map fun _ => none
  | _ => failure

def withDefault {α : Type} (default : α) (read : Node Nat → Reading α) :
    Option (Node Nat) → Reading α
  | none => return default
  | some node => read node

end Reading

end CircuitDag.Yaml
