import CircuitDag.Pass.Cancel

/-!
# Passes and pipelines

The passes, when each of them is worth running, and the pipelines of the optimization levels.
-/

set_option autoImplicit false

namespace CircuitDag

inductive PassKind where
  | analysis
  | transformation
deriving DecidableEq, Repr

def PassKind.name : PassKind → String
  | analysis => "Analysis"
  | transformation => "Transformation"

inductive Pass where
  /-- Cancels pairs of controlled-X gates. -/
  | cancelCX
  /-- Cancels pairs of all elements that undo themselves. -/
  | cancelInvolutions
  /-- Drops the records of removed vertices. -/
  | compactVertices
  /-- Takes the metrics. -/
  | circuitAnalysis
  /-- Checks the circuit. -/
  | integrityVerification
deriving DecidableEq, Repr

namespace Pass

def name : Pass → String
  | cancelCX => "CancelCX"
  | cancelInvolutions => "CancelInvolutions"
  | compactVertices => "CompactVertices"
  | circuitAnalysis => "CircuitAnalysis"
  | integrityVerification => "IntegrityVerification"

def all : List Pass :=
  [cancelCX, cancelInvolutions, compactVertices, circuitAnalysis, integrityVerification]

def ofName? (name : String) : Option Pass := all.find? (·.name == name)

def kind : Pass → PassKind
  | cancelCX | cancelInvolutions | compactVertices => .transformation
  | circuitAnalysis | integrityVerification => .analysis

/-- Whether a pass has something to do: two controlled-X gates, or removed vertices. -/
def shouldRun (pass : Pass) (c : Circuit) : Bool :=
  match pass with
  | cancelCX => 2 ≤ (c.elementCounts.lookup .cx).getD 0
  | compactVertices => c.numVertices < c.records.size
  | _ => true

/-- Checks the circuit, notes the result, and fails if something is wrong. -/
def verify : Compile Unit := do
  let s ← get
  let outcome := s.circuit.check
  let result : VerificationResult :=
    { passed := outcome.isOk
      verticesChecked := s.circuit.numVertices
      edgesChecked := s.circuit.numEdges }
  Compile.record fun p => { p with verification? := some result }
  match outcome with
  | .ok () => pure ()
  | .error cause =>
      throw <| .error <|
        .verification (s.properties.lastTransformation?.getD "<input>") (.integrity cause)

def run (pass : Pass) (rule : OverflowRule := .wrap) : Compile Unit :=
  match pass with
  | cancelCX => cancelPairs (· = .cx) rule
  | cancelInvolutions => cancelPairs Element.isInvolution rule
  | compactVertices => do
      let map ← Compile.edit Circuit.compact
      Compile.record fun p => { p with vertexMap? := some map }
  | circuitAnalysis => do
      let metrics := CircuitMetrics.ofCircuit (← get).circuit
      Compile.record fun p => { p with metrics? := some metrics }
  | integrityVerification => verify

end Pass

namespace Pipeline

/-- Runs one pass of a pipeline if it has something to do, and notes transformations. -/
def runPass (pass : Pass) (rule : OverflowRule := .wrap) : Compile Unit := do
  if pass.shouldRun (← get).circuit then
    pass.run rule
    if pass.kind = .transformation then
      Compile.record fun p => { p with lastTransformation? := some pass.name }

def run (passes : List Pass) (rule : OverflowRule := .wrap) : Compile Unit :=
  passes.forM fun pass => runPass pass rule

/-- The passes of an optimization level. Metrics are always taken; from level one on the circuit is
verified at the end, to catch what a rewriting has left behind. -/
def ofLevel (level : Nat) : List Pass :=
  (if 1 ≤ level then [.cancelCX] else []) ++
  (if 2 ≤ level then [.cancelInvolutions] else []) ++
  (if 1 ≤ level then [.compactVertices] else []) ++
  [.circuitAnalysis] ++
  (if 1 ≤ level then [.integrityVerification] else [])

def defaultLevel : Nat := 1

end Pipeline

end CircuitDag
