import CircuitDag.Yaml.Scalar
import CircuitDag.Yaml.Source

/-!
# Writing YAML strings

A string with line feeds is written as a literal block and every other one as a plain scalar, where
that reads back as the same string. Otherwise it gets single quotes and, where those cannot hold it,
double quotes.
-/

set_option autoImplicit false

namespace CircuitDag.Yaml

namespace ScalarText

/-! ## What stands in the way of a style -/

def isPrintable (c : Char) : Bool :=
  c = '\n' || (' ' ≤ c && c ≤ '~') ||
    ('\u00a0' ≤ c && c ≠ byteOrderMark && c ≠ '\ufffe' && c ≠ '\uffff')

/-- Whether a character of one kind is directly followed by one of another kind. -/
def hasPair (first second : Char → Bool) : List Char → Bool
  | a :: b :: rest => (first a && second b) || hasPair first second (b :: rest)
  | _ => false

/-- Whether only double quotes can hold a text: a character needs an escape, or a space before a
line end would be lost. -/
def needsEscapes (text : List Char) : Bool :=
  text.any (!isPrintable ·) || hasPair (· = ' ') isBreak text

/-- Whether a space after a line end would be lost in folding. -/
def losesSpace (text : List Char) : Bool := hasPair isBreak (· = ' ') text

def startsWithIndicator (text : List Char) : Bool :=
  match text with
  | [] => false
  | c :: rest =>
      "#,[]\x7b\x7d&*!|>'\"%@`".toList.contains c ||
        ("?:-".toList.contains c && endsWord (rest.head?.getD endMark)) ||
        text.take 3 = ['-', '-', '-'] || text.take 3 = ['.', '.', '.']

/-- Whether a colon before a blank or the end, or a number sign behind a blank, would end a plain
scalar. -/
def holdsIndicator (text : List Char) : Bool :=
  hasPair (· = ':') endsWord (text ++ [endMark]) || hasPair endsWord (· = '#') text

def isSpaceOrBreak (c : Char) : Bool := c = ' ' || isBreak c

def plainAllowed (text : List Char) : Bool :=
  !text.isEmpty && !needsEscapes text && !text.any isBreak && !startsWithIndicator text &&
    !holdsIndicator text && !text.head?.any isSpaceOrBreak && !text.getLast?.any isSpaceOrBreak

def singleAllowed (text : List Char) : Bool := !needsEscapes text && !losesSpace text

def literalAllowed (text : List Char) : Bool :=
  !text.isEmpty && !needsEscapes text && text.getLast? ≠ some ' '

/-! ## Choosing a style -/

/-- Whether plain text would not be read as this string, or looks like a number. -/
def needsQuotes (text : String) : Bool :=
  ScalarValue.ofPlain text ≠ .string text || ScalarValue.hasLeadingZero text.toList

def style (text : String) : ScalarStyle :=
  let chars := text.toList
  if chars.contains '\n' then (if literalAllowed chars then .literal else .doubleQuoted)
  else if !needsQuotes text && plainAllowed chars then .plain
  else if singleAllowed chars then .singleQuoted
  else .doubleQuoted

/-! ## Writing -/

/-- Hexadecimal digits, in capitals. -/
def hexDigits : Nat → Nat → List Char
  | 0, _ => []
  | width + 1, n => hexDigits width (n / 16) ++ [(Nat.digitChar (n % 16)).toUpper]

/-- The escape of a character, its backslash left out. -/
def escape (c : Char) : List Char :=
  match c.toNat with
  | 0x00 => ['0']
  | 0x07 => ['a']
  | 0x08 => ['b']
  | 0x09 => ['t']
  | 0x0a => ['n']
  | 0x0b => ['v']
  | 0x0c => ['f']
  | 0x0d => ['r']
  | 0x1b => ['e']
  | 0x22 => ['"']
  | 0x5c => ['\\']
  | 0x85 => ['N']
  | 0xa0 => ['_']
  | 0x2028 => ['L']
  | 0x2029 => ['P']
  | code =>
      if code ≤ 0xff then 'x' :: hexDigits 2 code
      else if code ≤ 0xffff then 'u' :: hexDigits 4 code
      else 'U' :: hexDigits 8 code

def doubleQuoted (text : List Char) : List Char :=
  '"' :: text.flatMap (fun c =>
    if !isPrintable c || isBreak c || c = '"' || c = '\\' then '\\' :: escape c else [c]) ++ ['"']

/-- Text whose lines behind a line end are indented; empty lines are left as they are. `fresh` holds
at the start of a line. -/
def indentLines (indent : Nat) : (fresh : Bool) → List Char → List Char
  | _, [] => []
  | fresh, c :: rest =>
      if isBreak c then c :: indentLines indent true rest
      else if fresh then List.replicate indent ' ' ++ c :: indentLines indent false rest
      else c :: indentLines indent false rest

def singleQuoted (indent : Nat) (text : List Char) : List Char :=
  let closing := if text.getLast?.any isBreak then List.replicate indent ' ' else []
  let doubled := text.flatMap fun c => if c = '\'' then ['\'', '\''] else [c]
  '\'' :: indentLines indent false doubled ++ closing ++ ['\'']

/-- The header of a literal block: a digit for the indentation if the text starts with a space or a
line end, and a sign for what becomes of its last line ends. -/
def literalHeader (text : List Char) : List Char :=
  let digit := if text.head?.any isSpaceOrBreak then ['2'] else []
  let sign := match text.reverse with
    | last :: [] => if isBreak last then ['+'] else ['-']
    | last :: beforeLast :: _ =>
        if !isBreak last then ['-'] else if isBreak beforeLast then ['+'] else []
    | [] => ['-']
  '|' :: digit ++ sign

def literal (indent : Nat) (text : List Char) : List Char :=
  let lineEnd := if text.getLast?.any isBreak then [] else ['\n']
  literalHeader text ++ ['\n'] ++ indentLines indent true text ++ lineEnd

/-- A string with the end of its last line, its further lines indented. -/
def write (indent : Nat) (text : String) : List Char :=
  match style text with
  | .plain => text.toList ++ ['\n']
  | .singleQuoted => singleQuoted indent text.toList ++ ['\n']
  | .literal => literal indent text.toList
  | _ => doubleQuoted text.toList ++ ['\n']

end ScalarText

end CircuitDag.Yaml
