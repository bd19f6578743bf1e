import CircuitDag.Element
import CircuitDag.Param.Text

/-!
# Operations

An operation is an element with its parameters. An element given without a parameter list is told
apart from one given with an empty list, in equality and in text.
-/

set_option autoImplicit false

namespace CircuitDag

/-- An element with its parameters, if a parameter list was given. -/
structure Operation where
  element : Element
  params? : Option (List Param) := none
deriving DecidableEq, Inhabited

namespace Operation

/-- The parameters; empty when no list was given. -/
def params (op : Operation) : List Param := op.params?.getD []

/-- Same element, and parameters pairwise equal up to whole turns. -/
def approxEqTurn (a b : Operation) (tolerance : Binary64) : Bool :=
  a.element == b.element && a.params.length == b.params.length &&
    (a.params.zip b.params).all fun (p, q) => p.approxEqTurn q tolerance

/-- The element's name, followed by the parameter list if there is one. -/
def text (op : Operation) : String :=
  match op.params? with
  | none => op.element.name
  | some params => op.element.name ++ "(" ++ ", ".intercalate (params.map Param.text) ++ ")"

end Operation

end CircuitDag
