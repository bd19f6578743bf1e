import CircuitDag.Number.DecimalText
import CircuitDag.Yaml.Token

/-!
# The values of YAML scalars

A plain scalar is null, a truth value, an integer, a number or a string, by its spelling. Integers
can be decimal, hexadecimal, octal or binary; decimal digits behind a leading zero make a string.
An integer with a minus sign stays apart from the others even if it is zero.
-/

set_option autoImplicit false

namespace CircuitDag.Yaml

/-- The value of a scalar. -/
inductive ScalarValue where
  | null
  | bool (value : Bool)
  /-- An integer without a minus sign. -/
  | nat (value : Nat)
  /-- An integer with a minus sign, by its distance from zero. -/
  | negated (magnitude : Nat)
  | float (value : Binary64)
  | string (text : String)
deriving DecidableEq

namespace ScalarValue

/-! ## Spellings -/

def isNull (text : String) : Bool := ["null", "Null", "NULL", "~"].contains text

def bool? (text : String) : Option Bool :=
  if ["true", "True", "TRUE"].contains text then some true
  else if ["false", "False", "FALSE"].contains text then some false
  else none

/-- The value of a digit; the letters are digits from ten on. -/
def digit? (radix : Nat) (c : Char) : Option Nat :=
  let value :=
    if c.isDigit then c.toNat - '0'.toNat
    else if c.isLower then c.toNat - 'a'.toNat + 10
    else if c.isUpper then c.toNat - 'A'.toNat + 10
    else radix
  if value < radix then some value else none

def digits? (radix : Nat) (text : List Char) : Option Nat :=
  if text.isEmpty then none
  else text.foldlM (fun n c => (digit? radix c).map (radix * n + ·)) 0

/-- The text without the sign at its front. -/
def dropSign (text : List Char) : List Char :=
  match text with
  | '+' :: rest | '-' :: rest => rest
  | text => text

def hasLeadingZero (text : List Char) : Bool :=
  match dropSign text with
  | '0' :: c :: rest => (c :: rest).all Char.isDigit
  | _ => false

/-- The value of digits with a mark for their radix, if there is one. -/
def magnitude? (text : List Char) : Option Nat :=
  match text with
  | '0' :: 'x' :: rest => digits? 16 rest
  | '0' :: 'o' :: rest => digits? 8 rest
  | '0' :: 'b' :: rest => digits? 2 rest
  | text => if hasLeadingZero text then none else digits? 10 text

def nat? (text : List Char) : Option Nat :=
  match text with
  | '+' :: rest => magnitude? rest
  | text => magnitude? text

def integer? (text : List Char) : Option ScalarValue :=
  match text with
  | '-' :: rest => do
      let n ← magnitude? rest
      if n ≤ Nat.pow 2 127 then some (negated n) else none
  | text => do
      let n ← nat? text
      if n < Nat.pow 2 128 then some (nat n) else none

def finite? (text : List Char) : Option Binary64 := do
  let (negative, text) := match text with
    | '-' :: rest => (true, rest)
    | '+' :: rest => (false, rest)
    | text => (false, text)
  let x := (← DecimalText.ofText? text).magnitude.toBinary64
  if !x.isFinite then none else some (if negative then -x else x)

/-- A number; the values that are not finite start with a point. -/
def float? (text : String) : Option Binary64 :=
  if [".inf", ".Inf", ".INF", "+.inf", "+.Inf", "+.INF"].contains text then
    some Binary64.infinity
  else if ["-.inf", "-.Inf", "-.INF"].contains text then some Binary64.negInfinity
  else if [".nan", ".NaN", ".NAN"].contains text then some Binary64.nan
  else finite? text.toList

/-! ## Values -/

def ofPlain (text : String) : ScalarValue :=
  if text.isEmpty || isNull text then null
  else match bool? text with
    | some b => bool b
    | none =>
        match integer? text.toList with
        | some n => n
        | none =>
            if hasLeadingZero text.toList then string text
            else match float? text with
              | some x => float x
              | none => string text

def coreTag (kind : String) : String := "tag:yaml.org,2002:" ++ kind

/-- The value of a scalar with a tag, whose text has to fit the tag. Tags without a special meaning
make strings. -/
def ofTagged? (tag text : String) : Option ScalarValue :=
  if tag = coreTag "bool" then (bool? text).map bool
  else if tag = coreTag "int" then integer? text.toList
  else if tag = coreTag "float" then (float? text).map float
  else if tag = coreTag "null" then (if isNull text then some null else none)
  else some (string text)

/-- The value of a scalar. Only plain scalars are other than strings by their spelling. -/
def ofScalar? (tag? : Option String) (style : ScalarStyle) (text : String) :
    Option ScalarValue :=
  match tag? with
  | some tag => ofTagged? tag text
  | none => some (if style = .plain then ofPlain text else string text)

end ScalarValue

/-- Whether a scalar can stand for a number: it is plain, or literal with the tag of the kind of
number. -/
def isNumeral (kind : String) (tag? : Option String) (style : ScalarStyle) : Bool :=
  style = .plain || (style = .literal && tag? = some (ScalarValue.coreTag kind))

end CircuitDag.Yaml
