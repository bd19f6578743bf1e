/-!
# Circuit elements

The closed set of things that can stand on wires: the two wire anchors, the gates, the
instructions that are not gates, and one element for gates defined by the user. Each has a
lower-case name, and a tag under which it is stored.
-/

set_option autoImplicit false

namespace CircuitDag

/-- What kind of vertex an element makes. -/
inductive ElementKind where
  /-- The anchor at the start of a wire. -/
  | input
  /-- The anchor at the end of a wire. -/
  | output
  /-- Anything that is not a wire anchor. -/
  | operation
deriving DecidableEq, Repr

namespace ElementKind

def tag : ElementKind → String
  | input => "Input"
  | output => "Output"
  | operation => "Operation"

def all : List ElementKind := [input, output, operation]

def ofTag? (tag : String) : Option ElementKind := all.find? (·.tag == tag)

end ElementKind

/-- A circuit element. The order of the constructors is the order in which counts by element are
listed. -/
inductive Element where
  | input | output
  | id | x | y | z | h | s | sdg | t | tdg | sx | sxdg
  | rx | ry | rz | p | u
  | cx | cy | cz | ch | swap | iswap
  | crx | cry | crz | cp | rxx | ryy | rzz
  | ccx | cswap
  | measure | reset | barrier
  | custom
deriving DecidableEq, Repr, Inhabited, Hashable

namespace Element

/-- All elements, in listing order. -/
def all : List Element :=
  [input, output, id, x, y, z, h, s, sdg, t, tdg, sx, sxdg, rx, ry, rz, p, u, cx, cy, cz, ch,
    swap, iswap, crx, cry, crz, cp, rxx, ryy, rzz, ccx, cswap, measure, reset, barrier, custom]

/-- The lower-case name of an element, as circuits are described. -/
def name : Element → String
  | input => "input"
  | output => "output"
  | id => "id"
  | x => "x"
  | y => "y"
  | z => "z"
  | h => "h"
  | s => "s"
  | sdg => "sdg"
  | t => "t"
  | tdg => "tdg"
  | sx => "sx"
  | sxdg => "sxdg"
  | rx => "rx"
  | ry => "ry"
  | rz => "rz"
  | p => "p"
  | u => "u"
  | cx => "cx"
  | cy => "cy"
  | cz => "cz"
  | ch => "ch"
  | swap => "swap"
  | iswap => "iswap"
  | crx => "crx"
  | cry => "cry"
  | crz => "crz"
  | cp => "cp"
  | rxx => "rxx"
  | ryy => "ryy"
  | rzz => "rzz"
  | ccx => "ccx"
  | cswap => "cswap"
  | measure => "measure"
  | reset => "reset"
  | barrier => "barrier"
  | custom => "custom"

def tag : Element → String
  | input => "Input"
  | output => "Output"
  | id => "I"
  | x => "X"
  | y => "Y"
  | z => "Z"
  | h => "H"
  | s => "S"
  | sdg => "SDg"
  | t => "T"
  | tdg => "TDg"
  | sx => "SX"
  | sxdg => "SXDg"
  | rx => "RX"
  | ry => "RY"
  | rz => "RZ"
  | p => "P"
  | u => "U"
  | cx => "CX"
  | cy => "CY"
  | cz => "CZ"
  | ch => "CH"
  | swap => "Swap"
  | iswap => "ISwap"
  | crx => "CRX"
  | cry => "CRY"
  | crz => "CRZ"
  | cp => "CP"
  | rxx => "RXX"
  | ryy => "RYY"
  | rzz => "RZZ"
  | ccx => "CCX"
  | cswap => "CSwap"
  | measure => "Measure"
  | reset => "Reset"
  | barrier => "Barrier"
  | custom => "CustomGate"

def ofName? (name : String) : Option Element := all.find? (·.name == name)

def ofTag? (tag : String) : Option Element := all.find? (·.tag == tag)

def kind : Element → ElementKind
  | input => .input
  | output => .output
  | _ => .operation

def isAnchor (e : Element) : Bool := e.kind ≠ .operation

def isCustom (e : Element) : Bool := e = custom

/-- How many qubits the element acts on; `none` when any number is accepted. -/
def numQubits : Element → Option Nat
  | input | output => some 0
  | id | x | y | z | h | s | sdg | t | tdg | sx | sxdg | rx | ry | rz | p | u | measure | reset =>
      some 1
  | cx | cy | cz | ch | swap | iswap | crx | cry | crz | cp | rxx | ryy | rzz => some 2
  | ccx | cswap => some 3
  | barrier | custom => none

/-- How many classical bits the element acts on; `none` when any number is accepted. -/
def numClbits : Element → Option Nat
  | measure => some 1
  | custom => none
  | _ => some 0

/-- How many parameters the element takes; `none` when any number is accepted. -/
def numParams : Element → Option Nat
  | rx | ry | rz | p | crx | cry | crz | cp | rxx | ryy | rzz => some 1
  | u => some 3
  | custom => none
  | _ => some 0

/-- Whether applying the element twice in a row to the same wires does nothing. -/
def isInvolution : Element → Bool
  | id | x | y | z | h | cx | cy | cz | ch | swap | ccx | cswap => true
  | _ => false

theorem mem_all (e : Element) : e ∈ all := by cases e <;> decide

theorem ofName?_name (e : Element) : ofName? e.name = some e := by cases e <;> decide

theorem ofTag?_tag (e : Element) : ofTag? e.tag = some e := by cases e <;> decide

/-- How often each element occurs in a list, in listing order; elements that do not occur are left
out. -/
def counts (elements : List Element) : List (Element × Nat) :=
  all.filterMap fun e =>
    let n := elements.count e
    if n = 0 then none else some (e, n)

end Element

end CircuitDag
