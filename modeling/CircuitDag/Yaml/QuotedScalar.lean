import CircuitDag.Yaml.Folding

/-!
# Quoted scalars

Scalars in single quotes, in which a quote is doubled, and in double quotes, with escapes.
-/

set_option autoImplicit false

namespace CircuitDag.Yaml

namespace QuotedScalar

def shortEscape? (c : Char) : Option Char :=
  match c with
  | '0' => some '\x00'
  | 'a' => some '\x07'
  | 'b' => some '\x08'
  | 't' | '\t' => some '\t'
  | 'n' => some '\n'
  | 'v' => some '\x0b'
  | 'f' => some '\x0c'
  | 'r' => some '\r'
  | 'e' => some '\x1b'
  | ' ' | '"' | '/' | '\\' => some c
  | 'N' => some '\u0085'
  | '_' => some '\u00a0'
  | 'L' => some '\u2028'
  | 'P' => some '\u2029'
  | _ => none

def escapeWidth? (c : Char) : Option Nat :=
  match c with
  | 'x' => some 2
  | 'u' => some 4
  | 'U' => some 8
  | _ => none

def charOfCode? (code : Nat) : Option Char :=
  if h : code.isValidChar then some (Char.ofNatAux code h) else none

/-- The character of an escape, its backslash left out. -/
def escape? : Source → Option (Char × Source)
  | [] => none
  | p :: rest =>
      match escapeWidth? p.char with
      | none => (shortEscape? p.char).map fun c => (c, rest)
      | some width => do
          let digits := (rest.take width).map Place.char
          if digits.length < width then none
          else return (← charOfCode? (← hexValue? digits), rest.drop width)

/-- Reads a scalar up to its closing quote, at most `fuel` steps; `text` is what stands before, the
newest character first. -/
def content? (single : Bool) : Nat → List Char → Source → Option (String × Source)
  | 0, _, _ => none
  | _ + 1, _, [] => none
  | fuel + 1, text, p :: rest =>
      if Source.atDocumentMarker (p :: rest) || p.char = endMark then none
      else if isBlank p.char || isBreak p.char then
        let (gap, s) := Gap.read {} (p :: rest)
        content? single fuel (gap.text.reverse ++ text) s
      else if single then
        if p.char ≠ '\'' then content? single fuel (p.char :: text) rest
        else if Source.peek rest = '\'' then content? single fuel ('\'' :: text) (rest.drop 1)
        else some (String.ofList text.reverse, rest)
      else if p.char = '"' then some (String.ofList text.reverse, rest)
      else if p.char ≠ '\\' then content? single fuel (p.char :: text) rest
      else if isBreak (Source.peek rest) then
        let (gap, s) := Gap.read { folded := true } (rest.drop 1)
        content? single fuel (gap.text.reverse ++ text) s
      else do
        let (c, s) ← escape? rest
        content? single fuel (c :: text) s

/-- Reads a quoted scalar, its opening quote left out. Every step takes a character. -/
def read? (single : Bool) (s : Source) : Option (String × Source) :=
  content? single (s.length + 1) [] s

end QuotedScalar

end CircuitDag.Yaml
