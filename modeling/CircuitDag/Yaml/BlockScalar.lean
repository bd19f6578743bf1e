import CircuitDag.Yaml.Source

/-!
# Block scalars

Literal and folded scalars: indented lines behind a header. The header says what becomes of the
line ends at the end of the text, and it may give the indentation.
-/

set_option autoImplicit false

namespace CircuitDag.Yaml

/-- What becomes of the line ends at the end of a block scalar. -/
inductive Chomping where
  /-- All are dropped. -/
  | strip
  /-- The first one is kept. -/
  | clip
  /-- All are kept. -/
  | keep
deriving DecidableEq, Repr

namespace Chomping

def ofSign? (c : Char) : Option Chomping :=
  if c = '+' then some keep else if c = '-' then some strip else none

end Chomping

namespace BlockScalar

/-- The header of a block scalar. -/
structure Header where
  chomping : Chomping
  /-- How much deeper than its block the text is indented, if that is given. -/
  increment? : Option Nat

/-- A digit for the indentation, which must not be zero. -/
def increment? (s : Source) : Option (Option Nat × Source) :=
  let c := s.peek
  if c = '0' then none
  else if c.isDigit then some (some (c.toNat - '0'.toNat), s.drop 1)
  else some (none, s)

def chomping (s : Source) : Chomping × Source :=
  match Chomping.ofSign? s.peek with
  | some chomping => (chomping, s.drop 1)
  | none => (.clip, s)

/-- Reads a header: a sign and a digit in either order, both optional. -/
def header? (s : Source) : Option (Header × Source) :=
  match Chomping.ofSign? s.peek with
  | some chomping => do
      let (increment?, s) ← increment? (s.drop 1)
      return (⟨chomping, increment?⟩, s)
  | none => do
      let (increment?, s) ← increment? s
      match increment? with
      | none => return (⟨.clip, none⟩, s)
      | some _ =>
          let (chomping, s) := chomping s
          return (⟨chomping, increment?⟩, s)

/-- Empty lines, and the column of the deepest character that ends one or stands behind them. -/
structure EmptyLines where
  breaks : List Char := []
  deepest : Nat := 0

/-- Skips indentation up to column `indent`, or of any depth when that is zero, and empty lines. No
tab may stand in the indentation. -/
def emptyLines? (indent : Nat) (lines : EmptyLines) : Source → Option (EmptyLines × Source)
  | [] => some (lines, [])
  | p :: rest =>
      let inside := indent = 0 || p.column < indent
      if inside && p.char = ' ' then emptyLines? indent lines rest
      else
        let lines := { lines with deepest := max lines.deepest p.column }
        if inside && p.char = '\t' then none
        else if isBreak p.char then
          emptyLines? indent { lines with breaks := lines.breaks ++ [p.char] } rest
        else some (lines, p :: rest)

/-- The text of a block scalar so far. -/
structure Content where
  text : List Char := []
  /-- The end of the last line. -/
  lastBreak : List Char := []
  /-- The empty lines behind it. -/
  emptyBreaks : List Char
  /-- Whether the last line starts with a blank. -/
  indented : Bool := false

namespace Content

/-- The text up to the start of the next line. A folded line end becomes a space or is dropped
before empty lines, unless one of the lines starts with a blank. -/
def joined (c : Content) (literal nextIndented : Bool) : List Char :=
  let lineEnd :=
    if !literal && c.lastBreak = ['\n'] && !c.indented && !nextIndented then
      (if c.emptyBreaks.isEmpty then [' '] else [])
    else c.lastBreak
  c.text ++ lineEnd ++ c.emptyBreaks

def chomped (c : Content) (chomping : Chomping) : String :=
  String.ofList <| match chomping with
    | .strip => c.text
    | .clip => c.text ++ c.lastBreak
    | .keep => c.text ++ c.lastBreak ++ c.emptyBreaks

end Content

/-- Reads at most `fuel` lines that are indented to column `indent`. -/
def lines? (literal : Bool) (indent : Nat) : Nat → Content → Source → Option (Content × Source)
  | 0, _, _ => none
  | fuel + 1, content, s =>
      if s.column ≠ indent || s.peek = endMark then some (content, s)
      else do
        let indented := isBlank s.peek
        let text := content.joined literal indented
        let (line, s) := s.span (!endsLine ·)
        let lastBreak := if isBreak s.peek then [s.peek] else []
        let (empty, s) ← emptyLines? indent {} (s.drop lastBreak.length)
        lines? literal indent fuel
          { text := text ++ line, lastBreak, emptyBreaks := empty.breaks, indented } s

/-- Reads a block scalar, its indicator left out, in a block whose content starts at column
`margin` or behind. Every line takes a character. -/
def read? (literal : Bool) (margin : Nat) (s : Source) : Option (String × Source) := do
  let (header, s) ← header? s
  let s ← s.finishLine?
  let given := match header.increment? with
    | some increment => margin - 1 + increment
    | none => 0
  let (empty, s) ← emptyLines? given {} s
  let indent := if given = 0 then max (max empty.deepest margin) 1 else given
  let (content, s) ← lines? literal indent (s.length + 1) { emptyBreaks := empty.breaks } s
  return (content.chomped header.chomping, s)

end BlockScalar

end CircuitDag.Yaml
