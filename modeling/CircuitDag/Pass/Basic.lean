import CircuitDag.Circuit.Check

/-!
# Compilation state

Passes work on a circuit and on properties that they leave for one another: the metrics of the
circuit, the map of the last compaction, how much has been cancelled, the result of the last
verification and the transformation that ran last.
-/

set_option autoImplicit false

namespace CircuitDag

/-- The figures of a circuit. Counts by element are in listing order. -/
structure CircuitMetrics where
  numQubits : Nat
  numClbits : Nat
  numVertices : Nat
  numEdges : Nat
  numOperations : Nat
  depth : Nat
  numTensorFactors : Nat
  numParameters : Nat
  elementCounts : List (Element × Nat)
  longestPathCounts : List (Element × Nat)
deriving DecidableEq

def CircuitMetrics.ofCircuit (c : Circuit) : CircuitMetrics :=
  { numQubits := c.numQubits
    numClbits := c.numClbits
    numVertices := c.numVertices
    numEdges := c.numEdges
    numOperations := c.numOperations
    depth := c.depth
    numTensorFactors := c.numTensorFactors
    numParameters := c.numParameters
    elementCounts := c.elementCounts
    longestPathCounts := c.longestPathCounts }

/-- How many pairs of operations have been cancelled, and in how many sweeps. -/
structure CancellationStats where
  pairs : UInt64 := 0
  sweeps : UInt64 := 0
deriving DecidableEq

/-- The result of a verification. -/
structure VerificationResult where
  passed : Bool
  verticesChecked : Nat
  edgesChecked : Nat
deriving DecidableEq

/-- What passes leave for one another. -/
structure Properties where
  metrics? : Option CircuitMetrics := none
  vertexMap? : Option VertexMap := none
  lastTransformation? : Option String := none
  cancellation? : Option CancellationStats := none
  verification? : Option VerificationResult := none
deriving DecidableEq

/-- A circuit that is being compiled. -/
structure Compilation where
  circuit : Circuit
  properties : Properties := {}
deriving DecidableEq

/-- Why a pass failed. -/
inductive PassError where
  | circuit (cause : CircuitError)
  /-- The circuit was found inconsistent after the named transformation. -/
  | verification (lastTransformation : String) (cause : CircuitError)
deriving DecidableEq

def PassError.message : PassError → String
  | circuit cause => cause.message
  | verification lastTransformation cause =>
      s!"Circuit inconsistent after pass '{lastTransformation}': {cause.message}"

/-- A step of a compilation. A step that fails hands back what has been done. -/
abbrev Compile := EStateM (Failure PassError) Compilation

namespace Compile

def edit {α : Type} (change : Edit α) : Compile α := do
  let s ← get
  match change.run s.circuit with
  | .ok a circuit => set { s with circuit }; return a
  | .error cause circuit => set { s with circuit }; throw (.error (.circuit cause))

def record (f : Properties → Properties) : Compile Unit :=
  modify fun s => { s with properties := f s.properties }

end Compile

end CircuitDag
