import CircuitDag.Yaml.BlockScalar
import CircuitDag.Yaml.PlainScalar
import CircuitDag.Yaml.QuotedScalar
import CircuitDag.Yaml.Tags

/-!
# Splitting YAML text into tokens

A word may turn out to be the key of a mapping only at the colon behind it. The lexer remembers
where such a key may have started, and puts the tokens that announce it there once it meets the
colon. A key has to stand on one line and within 1024 octets.
-/

set_option autoImplicit false

namespace CircuitDag.Yaml

/-- A place where a key may have started. -/
structure PossibleKey where
  /-- How many tokens stand before it. -/
  position : Nat
  /-- Whether the place can only hold a key, because a block of keys goes on there. -/
  required : Bool
  line : Nat
  column : Nat
  index : Nat
deriving DecidableEq

/-- The tokens so far and what decides about the next ones. -/
structure Lexer where
  tokens : Array Token := #[]
  /-- The key that may have started in the innermost collection. -/
  key? : Option PossibleKey := none
  /-- The same for the collections around it, when there are brackets. -/
  outerKeys : List (Option PossibleKey) := []
  /-- The least column of the content of the innermost block; zero outside of all blocks. -/
  margin : Nat := 0
  /-- The margins of the blocks around it. -/
  outerMargins : List Nat := []
  /-- Whether a key may start here. -/
  keyAllowed : Bool := true

namespace Lexer

/-- How many octets a key may take, with the blanks behind it. -/
def maxKeyLength : Nat := 1024

def inFlow (l : Lexer) : Bool := !l.outerKeys.isEmpty

def emit (l : Lexer) (token : Token) : Lexer := { l with tokens := l.tokens.push token }

def insertAt (l : Lexer) (position : Nat) (token : Token) : Lexer :=
  { l with tokens := l.tokens.insertIdxIfInBounds position token }

def allowKey (l : Lexer) (allowed : Bool) : Lexer := { l with keyAllowed := allowed }

/-! ## Possible keys -/

/-- Gives up a possible key; one that is required must not be given up. -/
def abandon? (key? : Option PossibleKey) : Option (Option PossibleKey) :=
  match key? with
  | some key => if key.required then none else some none
  | none => some none

def dropKey? (l : Lexer) : Option Lexer := (abandon? l.key?).map fun key? => { l with key? }

/-- Gives up a key that is too far back at some place. -/
def expireKey? (p : Place) (key? : Option PossibleKey) : Option (Option PossibleKey) :=
  match key? with
  | some key =>
      if key.line < p.line || key.index + maxKeyLength < p.index then abandon? key? else some key?
  | none => some none

def expireKeys? (l : Lexer) (p : Place) : Option Lexer := do
  return { l with
    key? := ← expireKey? p l.key?
    outerKeys := ← l.outerKeys.mapM (expireKey? p) }

def saveKey? (l : Lexer) (p : Place) : Option Lexer :=
  if l.keyAllowed then
    l.dropKey?.map fun l =>
      { l with
        key? := some
          { position := l.tokens.size
            required := !l.inFlow && l.margin = p.column + 1
            line := p.line, column := p.column, index := p.index } }
  else some l

/-! ## Blocks -/

/-- Opens a block whose items start at a column that is deeper than the innermost block; its token
goes to a position. -/
def openBlock (l : Lexer) (column position : Nat) (token : Token) : Lexer :=
  if l.inFlow || column < l.margin then l
  else { l.insertAt position token with
    margin := column + 1, outerMargins := l.margin :: l.outerMargins }

/-- The margin, outer margins and tokens after closing the blocks whose margin is above a limit. -/
def closeMargins (limit : Nat) : Nat → List Nat → Array Token → Nat × List Nat × Array Token
  | margin, [], tokens => (margin, [], tokens)
  | margin, outer :: margins, tokens =>
      if limit < margin then closeMargins limit outer margins (tokens.push .blockEnd)
      else (margin, outer :: margins, tokens)

/-- Closes the blocks whose margin is above a limit. Brackets keep blocks open. -/
def closeBlocks (l : Lexer) (limit : Nat) : Lexer :=
  if l.inFlow then l
  else
    let (margin, outerMargins, tokens) := closeMargins limit l.margin l.outerMargins l.tokens
    { l with margin, outerMargins, tokens }

/-! ## Tokens -/

def leaveBlocks? (l : Lexer) : Option Lexer :=
  (l.closeBlocks 0).dropKey?.map (·.allowKey false)

def word? (l : Lexer) (p : Place) : Option Lexer := (l.saveKey? p).map (·.allowKey false)

def openFlow? (l : Lexer) (p : Place) (token : Token) : Option Lexer := do
  let l ← l.saveKey? p
  return ({ l with key? := none, outerKeys := l.key? :: l.outerKeys }.allowKey true).emit token

def closeFlow? (l : Lexer) (token : Token) : Option Lexer := do
  let l ← l.dropKey?
  let l := match l.outerKeys with
    | [] => l
    | key? :: outerKeys => { l with key?, outerKeys }
  return (l.allowKey false).emit token

/-- Opens a block at an indicator, where one is allowed. -/
def blockAt? (l : Lexer) (p : Place) (token : Token) : Option Lexer :=
  if l.inFlow then some l
  else if l.keyAllowed then some (l.openBlock p.column l.tokens.size token)
  else none

def blockItem? (l : Lexer) (p : Place) : Option Lexer := do
  let l ← (← l.blockAt? p .blockSequenceStart).dropKey?
  return (l.allowKey true).emit .blockEntry

def explicitKey? (l : Lexer) (p : Place) : Option Lexer := do
  let l ← (← l.blockAt? p .blockMappingStart).dropKey?
  return (l.allowKey !l.inFlow).emit .key

/-- Takes a colon. If a key may have started before it, the key is announced there. -/
def value? (l : Lexer) (p : Place) : Option Lexer :=
  match l.key? with
  | some key =>
      let l := (l.insertAt key.position .key).openBlock key.column key.position .blockMappingStart
      some (({ l with key? := none }.allowKey false).emit .value)
  | none => do
      let l ← l.blockAt? p .blockMappingStart
      return (l.allowKey !l.inFlow).emit .value

/-- Takes the token at the front of a text that starts with place `p`. -/
def token? (l : Lexer) (p : Place) (s : Source) : Option (Lexer × Source) :=
  let c := p.char
  let rest : Source := s.drop 1
  let wordEnds := endsWord (Source.peek rest)
  if p.column = 0 && c = '%' then do
    let l ← l.leaveBlocks?
    let (directive, s) ← readDirective? rest
    return (l.emit directive, s)
  else if s.startsWithMarker '-' then
    l.leaveBlocks?.map fun l => (l.emit .documentStart, s.drop 3)
  else if s.startsWithMarker '.' then
    l.leaveBlocks?.map fun l => (l.emit .documentEnd, s.drop 3)
  else if c = '[' then (l.openFlow? p .flowSequenceStart).map fun l => (l, rest)
  else if c = '{' then (l.openFlow? p .flowMappingStart).map fun l => (l, rest)
  else if c = ']' then (l.closeFlow? .flowSequenceEnd).map fun l => (l, rest)
  else if c = '}' then (l.closeFlow? .flowMappingEnd).map fun l => (l, rest)
  else if c = ',' then
    l.dropKey?.map fun l => ((l.allowKey true).emit .flowEntry, rest)
  else if c = '-' && wordEnds then (l.blockItem? p).map fun l => (l, rest)
  else if c = '?' && (l.inFlow || wordEnds) then (l.explicitKey? p).map fun l => (l, rest)
  else if c = ':' && (l.inFlow || wordEnds) then (l.value? p).map fun l => (l, rest)
  else if c = '*' then do
    let l ← l.word? p
    let (name, s) ← readName? rest
    return (l.emit (.reference name), s)
  else if c = '&' then do
    let l ← l.word? p
    let (name, s) ← readName? rest
    return (l.emit (.anchor name), s)
  else if c = '!' then do
    let l ← l.word? p
    let (tag, s) ← readTag? l.inFlow s
    return (l.emit (.tag tag), s)
  else if (c = '|' || c = '>') && !l.inFlow then do
    let l ← l.dropKey?
    let (text, s) ← BlockScalar.read? (c = '|') l.margin rest
    return ((l.allowKey true).emit (.scalar (if c = '|' then .literal else .folded) text), s)
  else if c = '\'' || c = '"' then do
    let l ← l.word? p
    let (text, s) ← QuotedScalar.read? (c = '\'') rest
    return (l.emit (.scalar (if c = '\'' then .singleQuoted else .doubleQuoted) text), s)
  else if PlainScalar.startsAt l.inFlow s then do
    let l ← l.word? p
    let (scalar, s) ← PlainScalar.read? l.inFlow l.margin s
    return ((l.allowKey scalar.lineEnded).emit (.scalar .plain scalar.text), s)
  else none

/-! ## Texts -/

/-- Skips blanks, comments and line ends, and says whether a key may start behind them. A line end
outside of brackets allows one. A tab is a blank only where no key may start, or inside
brackets. -/
def skipBlanks (flow : Bool) : (keyAllowed comment : Bool) → Source → Bool × Source
  | keyAllowed, _, [] => (keyAllowed, [])
  | keyAllowed, comment, p :: rest =>
      if isBreak p.char then skipBlanks flow (keyAllowed || !flow) false rest
      else if p.char = endMark then (keyAllowed, p :: rest)
      else if comment || p.char = '#' then skipBlanks flow keyAllowed true rest
      else if p.char = ' ' || (p.char = byteOrderMark && p.column = 0) ||
          (p.char = '\t' && (flow || !keyAllowed)) then
        skipBlanks flow keyAllowed false rest
      else (keyAllowed, p :: rest)

/-- Takes at most `fuel` tokens and then the end of the text. -/
def run? : Nat → Lexer → Source → Option Lexer
  | 0, _, _ => none
  | fuel + 1, l, s =>
      let (keyAllowed, s) := skipBlanks l.inFlow l.keyAllowed false s
      match s with
      | [] => none
      | p :: rest => do
          let l ← { l with keyAllowed }.expireKeys? p
          let l := l.closeBlocks (p.column + 1)
          if p.char = endMark then l.leaveBlocks?
          else
            let (l, s) ← l.token? p (p :: rest)
            run? fuel l s

end Lexer

/-- The tokens of a text. Every token takes a character. -/
def tokens? (text : String) : Option (List Token) := do
  let s ← Source.ofText? text
  let l ← Lexer.run? (s.length + 1) {} s
  return l.tokens.toList

end CircuitDag.Yaml
