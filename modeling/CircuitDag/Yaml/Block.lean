import CircuitDag.Yaml.ScalarText

/-!
# Laying out YAML text

A tree of mappings and sequences as it is written, one line for each scalar. The items of a sequence
stand at the column of the key before it; a sequence inside a sequence is indented.
-/

set_option autoImplicit false

namespace CircuitDag.Yaml

inductive Block where
  /-- A numeral. -/
  | numeral (tag? : Option String) (digits : String)
  /-- A string. -/
  | string (tag? : Option String) (text : String)
  | sequence (tag? : Option String) (items : List Block)
  | mapping (fields : List (String × Block))

namespace Block

def tagChars (tag? : Option String) : List Char :=
  match tag? with
  | none => []
  | some tag => ' ' :: '!' :: tag.toList

def spaces (n : Nat) : List Char := List.replicate n ' '

mutual

/-- What is written behind a key or the dash of an item, with the line ends. `indent` is the column
of the collection around it. -/
def chars (indent : Nat) (underKey : Bool) : Block → List Char
  | numeral tag? digits => tagChars tag? ++ ' ' :: digits.toList ++ ['\n']
  | string tag? text => tagChars tag? ++ ' ' :: ScalarText.write (indent + 2) text
  | sequence tag? [] => tagChars tag? ++ [' ', '[', ']', '\n']
  | sequence tag? (item :: items) =>
      tagChars tag? ++ '\n' ::
        itemChars (if underKey then indent else indent + 2) (item :: items)
  | mapping fields => ' ' :: fieldChars (indent + 2) true fields

def itemChars (indent : Nat) : List Block → List Char
  | [] => []
  | item :: items =>
      spaces indent ++ '-' :: item.chars indent false ++ itemChars indent items

/-- The fields of a mapping at some column. The first one goes on the line that is open already. -/
def fieldChars (indent : Nat) (first : Bool) : List (String × Block) → List Char
  | [] => []
  | (name, value) :: fields =>
      (if first then [] else spaces indent) ++ name.toList ++ ':' :: value.chars indent true ++
        fieldChars indent false fields

end

def documentText (fields : List (String × Block)) : String :=
  String.ofList (fieldChars 0 true fields)

end Block

end CircuitDag.Yaml
