import CircuitDag.Json.Token

/-!
# Laying out JSON text

A value is written either on one line without blanks, or with every item and member on a line of
its own. `JsonLayout` holds what differs.
-/

set_option autoImplicit false

namespace CircuitDag

/-- How items and members are set off from one another. -/
structure JsonLayout where
  /-- What stands before an item at some depth, and before the end of what holds items. -/
  lineBreak : Nat → List Char
  /-- What stands between a key and its value. -/
  keySeparator : List Char

namespace JsonLayout

def compact : JsonLayout := ⟨fun _ => [], [':']⟩

/-- Every item on a line of its own, indented by two blanks for each level. -/
def indented : JsonLayout := ⟨fun depth => '\n' :: List.replicate (2 * depth) ' ', [':', ' ']⟩

end JsonLayout

namespace Json

mutual

def layOut (layout : JsonLayout) (depth : Nat) : Json → List Char
  | null => JsonToken.null.chars
  | bool b => (JsonToken.bool b).chars
  | number numeral => (JsonToken.number numeral).chars
  | string text? => (JsonToken.string text?).chars
  | array [] => ['[', ']']
  | array (item :: items) =>
      '[' :: layOutItems layout (depth + 1) (item :: items) ++ layout.lineBreak depth ++ [']']
  | object [] => ['{', '}']
  | object (member :: members) =>
      '{' :: layOutMembers layout (depth + 1) (member :: members) ++ layout.lineBreak depth ++ ['}']

def layOutItems (layout : JsonLayout) (depth : Nat) : List Json → List Char
  | [] => []
  | item :: items =>
      layout.lineBreak depth ++ item.layOut layout depth ++
        if items.isEmpty then [] else ',' :: layOutItems layout depth items

def layOutMembers (layout : JsonLayout) (depth : Nat) : List (JsonText × Json) → List Char
  | [] => []
  | (key, value) :: members =>
      layout.lineBreak depth ++ JsonToken.stringChars key ++ layout.keySeparator ++
        value.layOut layout depth ++
        if members.isEmpty then [] else ',' :: layOutMembers layout depth members

end

def text (layout : JsonLayout) (value : Json) : String := String.ofList (value.layOut layout 0)

end Json

end CircuitDag
