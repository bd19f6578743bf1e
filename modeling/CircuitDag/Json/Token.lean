import CircuitDag.Json.Basic

/-!
# JSON tokens

The words of JSON text. `JsonToken.ofText?` splits a text into tokens, `JsonToken.chars` spells a
token, and `Json.tokens` lists the tokens of a value.
-/

set_option autoImplicit false

namespace CircuitDag

inductive JsonToken where
  | openArray
  | closeArray
  | openObject
  | closeObject
  | colon
  | comma
  | null
  | bool (value : Bool)
  | number (numeral : DecimalText)
  | string (text? : JsonText)
deriving DecidableEq

namespace JsonToken

/-! ## Numbers -/

/-- The digits after a point at the front of a text, if there is one. A point needs a digit. -/
def places? (text : List Char) : Option (List Char × List Char) :=
  match text with
  | '.' :: rest =>
      let places := rest.takeWhile Char.isDigit
      if places.isEmpty then none else some (places, rest.dropWhile Char.isDigit)
  | rest => some ([], rest)

/-- The exponent at the front of a text, if there is one. -/
def exponent? (text : List Char) : Option (Option Int × List Char) :=
  match text with
  | [] => some (none, [])
  | c :: rest =>
      if c = 'e' ∨ c = 'E' then
        let (negative, rest) := match rest with
          | '-' :: rest => (true, rest)
          | '+' :: rest => (false, rest)
          | rest => (false, rest)
        let digits := rest.takeWhile Char.isDigit
        if digits.isEmpty then none
        else
          let value : Int := Decimal.digitsValue digits
          some (some (if negative then -value else value), rest.dropWhile Char.isDigit)
      else some (none, text)

/-- The digits before the point. A zero at their front stands alone. -/
def whole? (text : List Char) : Option (List Char × List Char) :=
  match text with
  | '0' :: rest => some (['0'], rest)
  | text =>
      let whole := text.takeWhile Char.isDigit
      if whole.isEmpty then none else some (whole, text.dropWhile Char.isDigit)

def number? (text : List Char) : Option (JsonToken × List Char) := do
  let (negative, text) := match text with
    | '-' :: rest => (true, rest)
    | rest => (false, rest)
  let (whole, text) ← whole? text
  let (places, text) ← places? text
  let (exponent?, text) ← exponent? text
  return (number { negative, whole, places, exponent? }, text)

/-! ## Strings

The body of a string is a list of code units: the code points of the characters that stand for
themselves, and the values of the escapes. Two escapes can make up one character. -/

def hexDigit? (c : Char) : Option Nat :=
  if c.isDigit then some (c.toNat - '0'.toNat)
  else if 'a' ≤ c ∧ c ≤ 'f' then some (c.toNat - 'a'.toNat + 10)
  else if 'A' ≤ c ∧ c ≤ 'F' then some (c.toNat - 'A'.toNat + 10)
  else none

def hexValue? (digits : List Char) : Option Nat :=
  digits.foldlM (fun n c => (hexDigit? c).map (16 * n + ·)) 0

def shortEscape? (c : Char) : Option Nat :=
  match c with
  | '"' | '\\' | '/' => some c.toNat
  | 'b' => some 8
  | 'f' => some 12
  | 'n' => some 10
  | 'r' => some 13
  | 't' => some 9
  | _ => none

/-- The code units of a string up to its closing quote, and the text behind it. Control characters
have to be escaped. -/
def units? : List Char → Option (List Nat × List Char)
  | [] => none
  | '"' :: rest => some ([], rest)
  | '\\' :: 'u' :: a :: b :: c :: d :: rest => do
      let unit ← hexValue? [a, b, c, d]
      let (units, rest) ← units? rest
      return (unit :: units, rest)
  | '\\' :: c :: rest => do
      let unit ← shortEscape? c
      let (units, rest) ← units? rest
      return (unit :: units, rest)
  | c :: rest =>
      if c.toNat < 32 then none
      else do
        let (units, rest) ← units? rest
        return (c.toNat :: units, rest)

/-- The characters of code units. A high surrogate needs a low one behind it, and a low surrogate a
high one before it. -/
def decodeUnits : List Nat → Option (List Char)
  | [] => some []
  | high :: low :: units =>
      if 0xD800 ≤ high ∧ high < 0xDC00 ∧ 0xDC00 ≤ low ∧ low < 0xE000 then
        (decodeUnits units).map
          (Char.ofNat (0x10000 + (high - 0xD800) * 0x400 + (low - 0xDC00)) :: ·)
      else if 0xD800 ≤ high ∧ high < 0xE000 then none
      else (decodeUnits (low :: units)).map (Char.ofNat high :: ·)
  | [unit] => if 0xD800 ≤ unit ∧ unit < 0xE000 then none else some [Char.ofNat unit]

/-- The string at the front of a text, its opening quote left out. -/
def string? (text : List Char) : Option (JsonToken × List Char) :=
  (units? text).map fun (units, rest) => (string ((decodeUnits units).map String.ofList), rest)

/-- The character that stands for a code unit inside a string, or its escape. -/
def escapeChar (c : Char) : List Char :=
  match c with
  | '"' => ['\\', '"']
  | '\\' => ['\\', '\\']
  | '\n' => ['\\', 'n']
  | '\r' => ['\\', 'r']
  | '\t' => ['\\', 't']
  | c =>
      if c.toNat = 8 then ['\\', 'b']
      else if c.toNat = 12 then ['\\', 'f']
      else if c.toNat < 32 then
        ['\\', 'u', '0', '0', Nat.digitChar (c.toNat / 16), Nat.digitChar (c.toNat % 16)]
      else [c]

/-- A string in quotes. A string without a text has no spelling; it is written as an empty one. -/
def stringChars (text? : JsonText) : List Char :=
  '"' :: (text?.getD "").toList.flatMap escapeChar ++ ['"']

/-! ## Texts -/

def next? (text : List Char) : Option (JsonToken × List Char) :=
  match text with
  | '[' :: rest => some (openArray, rest)
  | ']' :: rest => some (closeArray, rest)
  | '{' :: rest => some (openObject, rest)
  | '}' :: rest => some (closeObject, rest)
  | ':' :: rest => some (colon, rest)
  | ',' :: rest => some (comma, rest)
  | '"' :: rest => string? rest
  | 'n' :: 'u' :: 'l' :: 'l' :: rest => some (null, rest)
  | 't' :: 'r' :: 'u' :: 'e' :: rest => some (bool true, rest)
  | 'f' :: 'a' :: 'l' :: 's' :: 'e' :: rest => some (bool false, rest)
  | text => number? text

def isBlank (c : Char) : Bool := c = ' ' || c = '\n' || c = '\t' || c = '\r'

/-- At most `fuel` tokens of a text that ends after them. -/
def scan : Nat → List Char → Option (List JsonToken)
  | 0, text => if (text.dropWhile isBlank).isEmpty then some [] else none
  | fuel + 1, text =>
      match text.dropWhile isBlank with
      | [] => some []
      | c :: rest => do
          let (token, rest) ← next? (c :: rest)
          return token :: (← scan fuel rest)

/-- The tokens of a text. Every token takes a character, so there are not more of them. -/
def ofText? (text : List Char) : Option (List JsonToken) := scan text.length text

/-- The spelling of a token. Positive exponents get a sign. -/
def chars : JsonToken → List Char
  | openArray => ['[']
  | closeArray => [']']
  | openObject => ['{']
  | closeObject => ['}']
  | colon => [':']
  | comma => [',']
  | null => ['n', 'u', 'l', 'l']
  | bool true => ['t', 'r', 'u', 'e']
  | bool false => ['f', 'a', 'l', 's', 'e']
  | number numeral => numeral.chars ['+']
  | string text? => stringChars text?

end JsonToken

namespace Json

mutual

def tokens : Json → List JsonToken
  | null => [.null]
  | bool b => [.bool b]
  | number numeral => [.number numeral]
  | string text? => [.string text?]
  | array items => .openArray :: itemTokens items ++ [.closeArray]
  | object members => .openObject :: memberTokens members ++ [.closeObject]

def itemTokens : List Json → List JsonToken
  | [] => []
  | item :: items =>
      item.tokens ++ if items.isEmpty then [] else .comma :: itemTokens items

def memberTokens : List (JsonText × Json) → List JsonToken
  | [] => []
  | (key, value) :: members =>
      .string key :: .colon :: value.tokens ++
        if members.isEmpty then [] else .comma :: memberTokens members

end

end Json

end CircuitDag
