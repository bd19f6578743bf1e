import CircuitDag.Json.Assembly
import CircuitDag.Json.Number

/-!
# Reading structured JSON values

Records are objects with named fields or arrays of their fields in order. Alternatives without
content are strings, or objects with one member that is null.
-/

set_option autoImplicit false

namespace CircuitDag.Json

/-- How deeply the arrays and objects of a value that is read may be nested. Values of unknown
fields are not read. -/
def maxDepth : Nat := 127

/-- The value, unless it is nested too deeply for a place at some depth. -/
def atDepth? (depth : Nat) (value : Json) : Option Json :=
  if depth + value.depth ≤ maxDepth then some value else none

def namedMembers? (members : List (JsonText × Json)) : Option (List (String × Json)) :=
  members.mapM fun (key, value) => key.map fun name => (name, value)

/-- The value of a field, if there is one; it must not be given twice. -/
def field? (members : List (String × Json)) (name : String) : Option (Option Json) :=
  match members.filter (·.1 == name) with
  | [] => some none
  | [(_, value)] => some (some value)
  | _ => none

/-- The values of the fields of a record, in the given order. An object may have other members
besides; an array may leave out fields at its end. -/
def fields? (names : List String) : Json → Option (List (Option Json))
  | object members => do
      let members ← namedMembers? members
      names.mapM (field? members)
  | array items =>
      if items.length ≤ names.length then
        some (items.map some ++ List.replicate (names.length - items.length) none)
      else none
  | _ => none

def withDefault {α : Type} (default : α) (read? : Json → Option α) : Option Json → Option α
  | none => some default
  | some value => read? value

def toList? {α : Type} (read? : Json → Option α) : Json → Option (List α)
  | array items => items.mapM read?
  | _ => none

def toString? : Json → Option String
  | string text? => text?
  | _ => none

def toTag? : Json → Option String
  | string text? => text?
  | object [(tag?, null)] => tag?
  | _ => none

end CircuitDag.Json
