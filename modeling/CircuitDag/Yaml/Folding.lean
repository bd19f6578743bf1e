import CircuitDag.Yaml.Source

/-!
# Line folding

What stands between two words of a plain or quoted scalar. Blanks within a line are kept; a single
line end becomes a space, and of several line ends the first one is dropped.
-/

set_option autoImplicit false

namespace CircuitDag.Yaml

/-- Blanks and line ends between two words. -/
structure Gap where
  /-- The blanks before the first line end. -/
  blanks : List Char := []
  /-- Whether the line has ended. -/
  folded : Bool := false
  /-- The first line end, unless it is escaped. -/
  first : List Char := []
  /-- The line ends behind the first one. -/
  others : List Char := []

namespace Gap

def isEmpty (g : Gap) : Bool := g.blanks.isEmpty && !g.folded

/-- Whether a tab must not stand here: at the start of a line before column `margin`. -/
def refusesTab (g : Gap) (margin : Nat) (p : Place) : Bool :=
  g.folded && p.char = '\t' && p.column < margin

/-- Adds a blank. Behind a line end, blanks are dropped. -/
def addBlank (g : Gap) (c : Char) : Gap :=
  if g.folded then g else { g with blanks := g.blanks ++ [c] }

def addBreak (g : Gap) (c : Char) : Gap :=
  if g.folded then { g with others := g.others ++ [c] }
  else { g with folded := true, first := [c] }

def text (g : Gap) : List Char :=
  if !g.folded then g.blanks
  else if g.first = ['\n'] then (if g.others.isEmpty then [' '] else g.others)
  else g.first ++ g.others

def read (g : Gap) : Source → Gap × Source
  | [] => (g, [])
  | p :: rest =>
      if isBlank p.char then read (g.addBlank p.char) rest
      else if isBreak p.char then read (g.addBreak p.char) rest
      else (g, p :: rest)

end Gap

end CircuitDag.Yaml
