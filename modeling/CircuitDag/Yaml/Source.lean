/-!
# YAML text

A YAML text as a list of characters with their places. Line ends of every kind but the two Unicode
separators are line feeds, and a NUL character, which no text may hold, marks the end.
-/

set_option autoImplicit false

namespace CircuitDag.Yaml

/-! ## Characters -/

def endMark : Char := '\x00'

def byteOrderMark : Char := '\ufeff'

def isBlank (c : Char) : Bool := c = ' ' || c = '\t'

/-- A line feed or a Unicode separator of lines or paragraphs. -/
def isBreak (c : Char) : Bool := c = '\n' || c = '\u2028' || c = '\u2029'

def endsLine (c : Char) : Bool := isBreak c || c = endMark

def endsWord (c : Char) : Bool := isBlank c || endsLine c

/-- The characters of names: ASCII letters and digits, the underscore and the hyphen. -/
def isNameChar (c : Char) : Bool := c.isAlphanum || c = '_' || c = '-'

def hexDigit? (c : Char) : Option Nat :=
  if c.isDigit then some (c.toNat - '0'.toNat)
  else if 'a' ≤ c ∧ c ≤ 'f' then some (c.toNat - 'a'.toNat + 10)
  else if 'A' ≤ c ∧ c ≤ 'F' then some (c.toNat - 'A'.toNat + 10)
  else none

def hexValue? (digits : List Char) : Option Nat :=
  digits.foldlM (fun n c => (hexDigit? c).map (16 * n + ·)) 0

/-- Whether a text may hold a character. Control characters are refused. -/
def isAllowed (c : Char) : Bool :=
  c = '\t' || c = '\n' || c = '\r' || (' ' ≤ c && c ≤ '~') || c = '\u0085' ||
    ('\u00a0' ≤ c && c ≤ '\ufffd') || 0x10000 ≤ c.toNat

/-! ## Places -/

/-- A character with its line and column and the number of octets before it in the text, which is
encoded in UTF-8. -/
structure Place where
  char : Char
  line : Nat
  column : Nat
  index : Nat
deriving DecidableEq

abbrev Source := List Place

namespace Source

def normalize : List Char → List Char
  | [] => []
  | '\r' :: '\n' :: rest => '\n' :: normalize rest
  | c :: rest => (if c = '\r' || c = '\u0085' then '\n' else c) :: normalize rest

/-- The characters of a text from some place on, with the mark at the end. -/
def locate (line column index : Nat) : List Char → Source
  | [] => [⟨endMark, line, column, index⟩]
  | c :: rest =>
      ⟨c, line, column, index⟩ ::
        if isBreak c then locate (line + 1) 0 (index + c.utf8Size) rest
        else locate line (column + 1) (index + c.utf8Size) rest

/-- A text as characters with places, if it holds no character that is refused. -/
def ofText? (text : String) : Option Source :=
  if text.toList.all isAllowed then some (locate 0 0 0 (normalize text.toList)) else none

def peek (s : Source) : Char :=
  match s with
  | [] => endMark
  | p :: _ => p.char

def column (s : Source) : Nat :=
  match s with
  | [] => 0
  | p :: _ => p.column

/-- The characters at the front that satisfy a predicate, and the rest. -/
def span (s : Source) (accept : Char → Bool) : List Char × Source :=
  let (taken, rest) := List.span (fun p : Place => accept p.char) s
  (taken.map Place.char, rest)

def skipWhile (s : Source) (accept : Char → Bool) : Source := s.dropWhile fun p => accept p.char

/-- Whether a line starts here with three times the given character and the end of a word. -/
def startsWithMarker (s : Source) (marker : Char) : Bool :=
  match s with
  | a :: b :: c :: rest =>
      a.column = 0 && a.char = marker && b.char = marker && c.char = marker &&
        endsWord (Source.peek rest)
  | _ => false

def atDocumentMarker (s : Source) : Bool := s.startsWithMarker '-' || s.startsWithMarker '.'

/-- Skips blanks and a comment up to the end of the line, and the line end; nothing else may stand
there. -/
def finishLine? (s : Source) : Option Source :=
  let s := s.skipWhile isBlank
  let s := if s.peek = '#' then s.skipWhile (!endsLine ·) else s
  if endsLine s.peek then some (if isBreak s.peek then s.drop 1 else s) else none

end Source

end CircuitDag.Yaml
