import CircuitDag.Json.Elements
import CircuitDag.Operation

/-!
# Parameters and operations in JSON

A parameter is an object with one member, named by its constructor; π is a string. An operation
names its element, and its parameters if there is a list of them.
-/

set_option autoImplicit false

namespace CircuitDag

namespace Param

def tagged (tag : String) (content : Json) : Json := .ofMembers [(tag, content)]

def toJson : Param → Json
  | value v => tagged "Value" (.ofBinary64 v)
  | symbol name => tagged "Symbol" (.ofString name)
  | pi => .ofString "Pi"
  | neg p => tagged "Neg" p.toJson
  | add a b => tagged "Add" (.array [a.toJson, b.toJson])
  | sub a b => tagged "Sub" (.array [a.toJson, b.toJson])
  | mul a b => tagged "Mul" (.array [a.toJson, b.toJson])
  | div a b => tagged "Div" (.array [a.toJson, b.toJson])

def ofTag? (tag : String) : Option (Param → Param → Param) :=
  match tag with
  | "Add" => some add
  | "Sub" => some sub
  | "Mul" => some mul
  | "Div" => some div
  | _ => none

mutual

/-- The parameter that a value stands for, however deeply it is nested. -/
def ofNested? : Json → Option Param
  | .string text? => if text? = some "Pi" then some pi else none
  | .object members => ofMembers? members
  | _ => none

/-- The parameter of an object, which has one member. -/
def ofMembers? : List (JsonText × Json) → Option Param
  | [(some tag, content)] =>
      match tag with
      | "Value" => content.toBinary64?.map value
      | "Symbol" => content.toString?.map symbol
      | "Pi" => if content matches .null then some pi else none
      | "Neg" => (ofNested? content).map neg
      | tag =>
          match ofTag? tag, content with
          | some make, .array items => (ofPair? items).map fun (a, b) => make a b
          | _, _ => none
  | _ => none

def ofPair? : List Json → Option (Param × Param)
  | [a, b] => do return (← ofNested? a, ← ofNested? b)
  | _ => none

end

def ofJson? (value : Json) (depth : Nat := 0) : Option Param :=
  (value.atDepth? depth).bind ofNested?

end Param

namespace Operation

def toJson (op : Operation) : Json :=
  .ofMembers <| ("element", op.element.toJson) ::
    match op.params? with
    | none => []
    | some params => [("params", .array (params.map Param.toJson))]

def paramsOfJson? (content : Json) : Option (Option (List Param)) :=
  if content matches .null then some none
  else (content.toList? (Param.ofJson? · 2)).map some

def ofJson? (content : Json) : Option Operation := do
  let [some element, params?] ← content.fields? ["element", "params"] | none
  let element ← Element.ofJson? element
  let params? ← Json.withDefault none paramsOfJson? params?
  return { element, params? }

end Operation

end CircuitDag
