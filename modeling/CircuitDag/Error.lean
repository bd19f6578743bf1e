import CircuitDag.Operation
import CircuitDag.Port

/-!
# Errors of circuits

Every way in which an operation on a circuit can fail has a constructor here that holds its cause;
`CircuitError.message` gives the wording.
-/

set_option autoImplicit false

namespace CircuitDag

def quotedList (ns : List Nat) : String := "[" ++ ", ".intercalate (ns.map toString) ++ "]"

/-- An optional value as messages show it, given the text of the value. -/
def quotedOption (text? : Option String) : String :=
  match text? with
  | none => "None"
  | some text => "Some(" ++ text ++ ")"

/-- The preconditions of the mutations of a circuit. -/
inductive ValidationError where
  /-- A wire is outside the range allowed for its place. -/
  | wireOutOfRange (wire start stop : WireId) (element? : Option String)
  /-- A wire is given twice. -/
  | duplicateWire (wire : WireId) (element? : Option String)
  /-- `got` items are given where `expected` are required. -/
  | arityMismatch (subject : String) (what : String) (expected got : Nat)
  /-- A wire anchor is given as an operation. -/
  | reservedElement (name : String)
  /-- An insertion point does not carry the wire it is paired with. -/
  | notOnWire (vertex : VertexId) (wire : WireId)
  /-- An insertion would put a vertex both before and after another one. -/
  | wouldCreateCycle (points : List VertexId)
  /-- A quantum wire is mapped to a classical one or the other way round. -/
  | wireKindMismatch (source target : WireId)
  /-- A qubit is added after classical bits. -/
  | classicalWiresPresent (numClbits : Nat)
  /-- A block is entered or left twice on a wire. -/
  | notContiguous (wire : WireId)
  /-- The first or last vertex of a block has no neighbour outside it. -/
  | blockBoundary (vertex : VertexId) (position direction : String)
deriving DecidableEq

namespace ValidationError

private def elementContext : Option String → String
  | none => ""
  | some name => s!" (element: {name})"

def message : ValidationError → String
  | wireOutOfRange wire start stop element? =>
      s!"Wire {wire} out of range (expected {start}..{stop})" ++ elementContext element?
  | duplicateWire wire element? =>
      s!"Duplicate wire {wire} in operation" ++ elementContext element?
  | arityMismatch subject what expected got =>
      s!"'{subject}' requires {expected} {what}, got {got}"
  | reservedElement name => s!"Element '{name}' is reserved for wire anchors"
  | notOnWire vertex wire => s!"Vertex {vertex} does not lie on wire {wire}"
  | wouldCreateCycle points =>
      s!"Inserting before vertices {quotedList points} would create a cycle"
  | wireKindMismatch source target =>
      s!"Wire {source} cannot be mapped to wire {target}: quantum/classical kind differs"
  | classicalWiresPresent numClbits =>
      s!"Cannot add a qubit to a circuit with {numClbits} classical wires"
  | notContiguous wire => s!"Block is not contiguous on wire {wire}"
  | blockBoundary vertex position direction =>
      s!"Vertex {vertex} is listed {position} but has no {direction} neighbor outside the block"

end ValidationError

/-- Why a vertex cannot be used for an operation. -/
inductive VertexFault where
  | missing
  | anchorNotRemovable
  | anchorNotRewirable
  | notSpliced
  | noInNeighbor
  | noOutNeighbor
  | insertBeforeInput
  | lostInCompaction
  | repeatedInBlock
  | noParameter
deriving DecidableEq

def VertexFault.message : VertexFault → String
  | missing => "vertex is out of range or removed"
  | anchorNotRemovable => "wire anchors cannot be removed"
  | anchorNotRewirable => "cannot rewire across a wire anchor"
  | notSpliced => "vertex is not spliced into all of its wires"
  | noInNeighbor => "input vertex has no in-neighbor"
  | noOutNeighbor => "output vertex has no out-neighbor"
  | insertBeforeInput => "cannot insert before an input vertex"
  | lostInCompaction => "vertex did not survive compaction"
  | repeatedInBlock => "block lists a vertex more than once"
  | noParameter => "no parameter at this position"

/-- The two directions in which a vertex has neighbours on a wire. -/
inductive Side where
  | incoming
  | outgoing
deriving DecidableEq, Repr

def Side.opposite : Side → Side
  | incoming => outgoing
  | outgoing => incoming

def Side.neighborName : Side → String
  | incoming => "in-neighbor"
  | outgoing => "out-neighbor"

/-- A violated invariant. -/
inductive Violation where
  /-- A violation that is only told. -/
  | stated (text : String)
  /-- A parameter is not the one that is expected. -/
  | paramMismatch (what : String) (expected? found? : Option Param)
  | anchorCount (expected inputs outputs : Nat)
  | missingAnchor (element : Element)
  | anchorWires (wire : WireId) (found : List WireId)
  | removedButWired
  | noWires
  | misplacedWire
  | repeatedWire
  | portPresence (side : Side) (found? : Option Port)
  | portTarget (side : Side) (wire : WireId) (found : Port)
  | portReturn (side : Side) (expected : Port) (found? : Option Port)
  | missingEdge (source target : VertexId)
  | edgeCount (expected found : Nat)
  | cyclic
  | pathCovering (carried : Nat) (output : VertexId) (visited : Nat) (last? : Option VertexId)
  | paramOnMissingVertex (param : Param)
  | paramUseCount (expected found : Nat)
  | staleParamUse (param? : Option Param) (position : Nat)
  | paramNotIndexed (param : Param) (position : Nat)
deriving DecidableEq

namespace Violation

private def mismatch (what expected found : String) : String :=
  s!"{what}: expected {expected}, found {found}"

private def quotedPort? (port? : Option Port) : String := quotedOption (port?.map Port.quoted)

def message : Violation → String
  | stated text => text
  | paramMismatch what expected? found? =>
      mismatch what (quotedOption (expected?.map Param.quoted))
        (quotedOption (found?.map Param.quoted))
  | anchorCount expected inputs outputs =>
      mismatch "anchor count" (toString expected) s!"({inputs}, {outputs})"
  | missingAnchor element => s!"missing {element.name} anchor"
  | anchorWires wire found => mismatch "anchor wires" (quotedList [wire]) (quotedList found)
  | removedButWired => "removed vertex still wired"
  | noWires => "vertex carries no wires"
  | misplacedWire => "wire list not quantum-first or out of range"
  | repeatedWire => "wire repeated on vertex"
  | portPresence side found? => s!"{side.neighborName} presence: found {quotedPort? found?}"
  | portTarget side wire found => mismatch side.neighborName (toString wire) found.quoted
  | portReturn side expected found? =>
      mismatch side.neighborName (quotedPort? (some expected)) (quotedPort? found?)
  | missingEdge source target => mismatch "graph edge" s!"({source}, {target})" "\"none\""
  | edgeCount expected found => mismatch "edge count" (toString expected) (toString found)
  | cyclic => "graph contains a cycle"
  | pathCovering carried output visited last? =>
      mismatch "path covering" s!"({carried}, {output})"
        s!"({visited}, {quotedOption (last?.map toString)})"
  | paramOnMissingVertex param => s!"parameter {param.text} indexed on a missing vertex"
  | paramUseCount expected found =>
      mismatch "reverse parameter index size" (toString expected) (toString found)
  | staleParamUse param? position =>
      "parameter " ++ (param?.map Param.text).getD "" ++
        s!" at position {position} stale in reverse index"
  | paramNotIndexed param position =>
      s!"parameter {param.text} at position {position} missing from table"

end Violation

/-- A violated invariant with the place where it was noticed. -/
structure IntegrityError where
  violation : Violation
  vertex? : Option VertexId := none
  wire? : Option WireId := none
deriving DecidableEq

namespace IntegrityError

private def location : Option VertexId → Option WireId → String
  | some v, some w => s!" (vertex {v}, wire {w})"
  | some v, none => s!" (vertex {v})"
  | none, some w => s!" (wire {w})"
  | none, none => ""

def message (e : IntegrityError) : String :=
  "Integrity violation: " ++ e.violation.message ++ location e.vertex? e.wire?

end IntegrityError

/-- Why an operation on a circuit failed. -/
inductive CircuitError where
  /-- A precondition does not hold. -/
  | validation (cause : ValidationError)
  /-- A vertex cannot be used. -/
  | invalidVertex (vertex : VertexId) (fault : VertexFault)
  /-- A vertex does not carry the wire asked for. -/
  | notIncident (vertex : VertexId) (wire : WireId)
  /-- An invariant does not hold. -/
  | integrity (cause : IntegrityError)
deriving DecidableEq

def CircuitError.message : CircuitError → String
  | validation cause => cause.message
  | invalidVertex vertex fault => s!"Invalid vertex {vertex}: {fault.message}"
  | notIncident vertex wire => s!"Wire {wire} is not incident to vertex {vertex}"
  | integrity cause => cause.message

/-- Why a call does not succeed: it reports an error, or it panics. -/
inductive Failure (ε : Type) where
  | error (cause : ε)
  | panic
deriving DecidableEq

def Failure.map {ε δ : Type} (f : ε → δ) : Failure ε → Failure δ
  | error cause => error (f cause)
  | panic => panic

end CircuitDag
