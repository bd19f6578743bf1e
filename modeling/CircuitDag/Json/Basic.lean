import CircuitDag.Number.DecimalText

/-!
# JSON values

A JSON value as it is written: numbers keep their numerals and objects keep the order and the
repetitions of their members.
-/

set_option autoImplicit false

namespace CircuitDag

/-- The text of a JSON string. Escapes can spell surrogates that are not part of a pair; such a
string has no text. -/
abbrev JsonText := Option String

inductive Json where
  | null
  | bool (value : Bool)
  | number (numeral : DecimalText)
  | string (text? : JsonText)
  | array (items : List Json)
  | object (members : List (JsonText × Json))
deriving Inhabited

namespace Json

def ofString (s : String) : Json := string (some s)

def ofNat (n : Nat) : Json := number { whole := Nat.toDigits 10 n }

/-- An object, its members given by name. -/
def ofMembers (members : List (String × Json)) : Json :=
  object (members.map fun (name, value) => (some name, value))

mutual

def depth : Json → Nat
  | null | bool _ | number _ | string _ => 0
  | array items => depthOfItems items + 1
  | object members => depthOfMembers members + 1

def depthOfItems : List Json → Nat
  | [] => 0
  | item :: items => max item.depth (depthOfItems items)

def depthOfMembers : List (JsonText × Json) → Nat
  | [] => 0
  | (_, value) :: members => max value.depth (depthOfMembers members)

end

end Json

end CircuitDag
