import CircuitDag.Json.Token

/-!
# Assembling JSON values

Tokens are put together to values by a machine whose stack holds the arrays and objects that are
still open. `Json.ofTokens?` runs it over all tokens of a text.
-/

set_option autoImplicit false

namespace CircuitDag

namespace Json

/-- An array or object that is still open, with its content so far, the newest first. -/
inductive OpenValue where
  | array (items : List Json)
  /-- An object; `key` belongs to the value that comes next. -/
  | object (members : List (JsonText × Json)) (key : JsonText)

/-- What has been read, by what may come next. The open values are listed from the inside out. -/
inductive Assembly where
  /-- A value is due. -/
  | nextValue (stack : List OpenValue)
  /-- An array has just been opened: a value or the end of the array is due. -/
  | firstItem (stack : List OpenValue)
  /-- An object has just been opened: a key or the end of the object is due. -/
  | firstKey (stack : List OpenValue)
  /-- A key is due. -/
  | nextKey (members : List (JsonText × Json)) (stack : List OpenValue)
  /-- The colon behind a key is due. -/
  | nextColon (members : List (JsonText × Json)) (key : JsonText) (stack : List OpenValue)
  /-- A comma or the end of the innermost array is due. -/
  | moreItems (items : List Json) (stack : List OpenValue)
  /-- A comma or the end of the innermost object is due. -/
  | moreMembers (members : List (JsonText × Json)) (stack : List OpenValue)
  /-- The value is complete. -/
  | complete (value : Json)

namespace Assembly

def deliver (value : Json) : List OpenValue → Assembly
  | [] => complete value
  | .array items :: stack => moreItems (value :: items) stack
  | .object members key :: stack => moreMembers ((key, value) :: members) stack

def beginValue (stack : List OpenValue) : JsonToken → Option Assembly
  | .null => some (deliver .null stack)
  | .bool b => some (deliver (.bool b) stack)
  | .number numeral => some (deliver (.number numeral) stack)
  | .string text? => some (deliver (.string text?) stack)
  | .openArray => some (firstItem stack)
  | .openObject => some (firstKey stack)
  | _ => none

def step : Assembly → JsonToken → Option Assembly
  | nextValue stack, token => beginValue stack token
  | firstItem stack, .closeArray => some (deliver (.array []) stack)
  | firstItem stack, token => beginValue (.array [] :: stack) token
  | firstKey stack, .closeObject => some (deliver (.object []) stack)
  | firstKey stack, .string text? => some (nextColon [] text? stack)
  | nextKey members stack, .string text? => some (nextColon members text? stack)
  | nextColon members key stack, .colon => some (nextValue (.object members key :: stack))
  | moreItems items stack, .comma => some (nextValue (.array items :: stack))
  | moreItems items stack, .closeArray => some (deliver (.array items.reverse) stack)
  | moreMembers members stack, .comma => some (nextKey members stack)
  | moreMembers members stack, .closeObject => some (deliver (.object members.reverse) stack)
  | _, _ => none

end Assembly

def ofTokens? (tokens : List JsonToken) : Option Json :=
  match tokens.foldlM Assembly.step (.nextValue []) with
  | some (.complete value) => some value
  | _ => none

def ofText? (text : String) : Option Json :=
  (JsonToken.ofText? text.toList).bind ofTokens?

end Json

end CircuitDag
