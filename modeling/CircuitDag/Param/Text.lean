import CircuitDag.Number.DecimalText
import CircuitDag.Param.Basic
import CircuitDag.Text.Quoted

/-!
# Parameters as text

`Param.text` is the mathematical notation of circuit listings; `Param.quoted` is the term
notation of messages, in which every constructor is spelled out.
-/

set_option autoImplicit false

namespace CircuitDag.Param

/-- A parameter in mathematical notation, every composite in parentheses. -/
def text : Param → String
  | value v => DecimalFormat.plain.write v
  | symbol name => name
  | pi => "π"
  | neg p => "-(" ++ p.text ++ ")"
  | add a b => "(" ++ a.text ++ " + " ++ b.text ++ ")"
  | sub a b => "(" ++ a.text ++ " - " ++ b.text ++ ")"
  | mul a b => "(" ++ a.text ++ " * " ++ b.text ++ ")"
  | div a b => "(" ++ a.text ++ " / " ++ b.text ++ ")"

def quoted : Param → String
  | value v => "Value(" ++ DecimalFormat.quoted.write v ++ ")"
  | symbol name => "Symbol(" ++ Text.quote name ++ ")"
  | pi => "Pi"
  | neg p => "Neg(" ++ p.quoted ++ ")"
  | add a b => "Add(" ++ a.quoted ++ ", " ++ b.quoted ++ ")"
  | sub a b => "Sub(" ++ a.quoted ++ ", " ++ b.quoted ++ ")"
  | mul a b => "Mul(" ++ a.quoted ++ ", " ++ b.quoted ++ ")"
  | div a b => "Div(" ++ a.quoted ++ ", " ++ b.quoted ++ ")"

end CircuitDag.Param
