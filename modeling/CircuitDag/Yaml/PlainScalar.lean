import CircuitDag.Yaml.Folding

/-!
# Plain scalars

Scalars without quotes. They end before a colon or a comment that follows or precedes a blank, at
the end of the enclosing block and, inside brackets, at a comma or a bracket.
-/

set_option autoImplicit false

namespace CircuitDag.Yaml

def isFlowIndicator (c : Char) : Bool := ",[]\x7b\x7d".toList.contains c

/-- A plain scalar that has been read. -/
structure PlainScalar where
  text : String
  /-- Whether the line ended behind it. -/
  lineEnded : Bool

namespace PlainScalar

def startsAt (flow : Bool) (s : Source) : Bool :=
  let c := s.peek
  let next := Source.peek (s.drop 1)
  if c = '-' then !isBlank next
  else if c = '?' || c = ':' then !flow && !endsWord next
  else !endsWord c && !",[]\x7b\x7d#&*!|>'\"%@`".toList.contains c

/-- Whether a character ends the scalar in front of the character `next`. -/
def endsBefore (flow : Bool) (c next : Char) : Bool :=
  c = endMark || (c = ':' && endsWord next) || (flow && isFlowIndicator c)

/-- Whether a colon stands inside brackets where it is refused: right before an indicator. -/
def isRefused (flow : Bool) (c next : Char) : Bool :=
  flow && c = ':' && (next = '?' || isFlowIndicator next)

/-- Whether the scalar ends after a gap: at the start or the end of a document, at a comment, and
where the text leaves the block. -/
def endsAfterGap (flow : Bool) (margin : Nat) (s : Source) : Bool :=
  s.atDocumentMarker || s.peek = '#' || (!flow && s.column < margin)

/-- Reads a plain scalar whose later lines are indented to column `margin`. `text` holds the
characters before, the newest one first, and `gap` what follows them. -/
def scan? (flow : Bool) (margin : Nat) (text : List Char) (gap : Gap) :
    Source → Option (PlainScalar × Source)
  | [] => some (⟨String.ofList text.reverse, gap.folded⟩, [])
  | p :: rest =>
      let next := Source.peek rest
      if isBlank p.char then
        if gap.refusesTab margin p then none else scan? flow margin text (gap.addBlank p.char) rest
      else if isBreak p.char then scan? flow margin text (gap.addBreak p.char) rest
      else if !gap.isEmpty && endsAfterGap flow margin (p :: rest) then
        some (⟨String.ofList text.reverse, gap.folded⟩, p :: rest)
      else if isRefused flow p.char next then none
      else if endsBefore flow p.char next then
        some (⟨String.ofList text.reverse, gap.folded⟩, p :: rest)
      else scan? flow margin (p.char :: (gap.text.reverse ++ text)) {} rest

def read? (flow : Bool) (margin : Nat) (s : Source) : Option (PlainScalar × Source) :=
  scan? flow margin [] {} s

end PlainScalar

end CircuitDag.Yaml
