import CircuitDag.CommandLine.Files
import CircuitDag.CommandLine.Invocation
import CircuitDag.Description.Text
import CircuitDag.Json.Metrics
import CircuitDag.Pass.Pipeline
import CircuitDag.Samples

/-!
# The commands

What each invocation does in some surroundings. A command ends with the first error, and what was
printed before stays printed.
-/

set_option autoImplicit false

namespace CircuitDag.CommandLine

/-- What a command reports when it fails. -/
inductive CommandError where
  | fileNotFound (path : String)
  | unsupportedExtension (extension path : String)
  | unreadable (path : String) (cause : FileError)
  | unparsable (path : String) (cause : DescriptionError)
  | invalidCircuit (path : String) (cause : DescriptionError)
  | inconsistent (path : String) (cause : IntegrityError)
  | unrenderable (cause : DescriptionError)
  | unwritable (path : String) (cause : FileError)
  /-- A ready-made circuit could not be built. -/
  | building (cause : CircuitError)
  | compiling (cause : PassError)
deriving DecidableEq

namespace CommandError

/-- The messages of a description error from the outside in: an operation that was refused is
followed by the reason on its own. -/
def chain : DescriptionError → List String
  | .refused index cause => [(DescriptionError.refused index cause).message, cause.message]
  | cause => [cause.message]

def message : CommandError → String
  | fileNotFound path => s!"File not found: {path}"
  | unsupportedExtension extension path =>
      s!"Unsupported file extension '{extension}' for {path}. Use .json, .yaml or .yml"
  | unreadable path cause => s!"Failed to read file: {path}: {cause.message}"
  | unparsable path cause => ": ".intercalate (s!"Failed to parse {path}" :: chain cause)
  | invalidCircuit path cause => ": ".intercalate (s!"Invalid circuit in {path}" :: chain cause)
  | inconsistent path cause => s!"Integrity check failed for {path}: {cause.message}"
  | unrenderable cause => ": ".intercalate ("Failed to render circuit" :: chain cause)
  | unwritable path cause => s!"Failed to write file: {path}: {cause.message}"
  | building cause => cause.message
  | compiling cause => cause.message

end CommandError

abbrev Command (m : Type → Type) := ExceptT (Failure CommandError) m

variable {m : Type → Type} [Monad m] [Host m]

def printLine (line : String) : Command m Unit := ExceptT.lift (Host.print (line ++ "\n"))

/-- Ends a command with a failure, if there is one. -/
def orFailWith {ε α : Type} (asError : ε → CommandError) (result : Except (Failure ε) α) :
    Command m α :=
  match result with
  | .ok a => return a
  | .error failure => throw (failure.map asError)

/-- Ends a command with an error, if there is one. -/
def orFail {ε α : Type} (asError : ε → CommandError) (result : Except ε α) : Command m α :=
  orFailWith asError (result.mapError .error)

/-! ## Circuits in files -/

def formatOf (path : String) : Except CommandError Format :=
  match Format.ofExtension? (extension path) with
  | some format => .ok format
  | none => .error (.unsupportedExtension (extension path) path)

def loadCircuit (path : String) : Command m Circuit := do
  if !(← ExceptT.lift (Host.fileExists path)) then throw (.error (.fileNotFound path))
  let format ← orFail id (formatOf path)
  let text ← orFail (.unreadable path) (← ExceptT.lift (Host.readFile path))
  let description ← orFail (.unparsable path) (CircuitDescription.parse format text)
  orFailWith (.invalidCircuit path) description.toCircuit

def saveCircuit (c : Circuit) (path : String) : Command m Unit := do
  let format ← orFail id (formatOf path)
  let text ← orFail .unrenderable ((CircuitDescription.ofCircuit c).render format)
  orFail (.unwritable path) (← ExceptT.lift (Host.writeFile path text))

/-! ## Reports -/

/-- A line of counts by element; none when there is nothing to count. -/
def countLines (title : String) (counts : List (Element × Nat)) : List String :=
  if counts.isEmpty then []
  else [title ++ ", ".intercalate (counts.map fun (e, n) => s!"{e.name}={n}")]

def metricsLines (figures : CircuitMetrics) : List String :=
  [s!"  Wires:     {figures.numQubits} qubits, {figures.numClbits} clbits",
    s!"  Graph:     {figures.numVertices} vertices, {figures.numEdges} edges",
    s!"  Ops:       {figures.numOperations}, depth {figures.depth}",
    s!"  Factors:   {figures.numTensorFactors}",
    s!"  Params:    {figures.numParameters}"] ++
  countLines "  Counts:    " figures.elementCounts ++
  countLines "  Longest:   " figures.longestPathCounts

def printMetrics (figures : CircuitMetrics) : Command m Unit :=
  (metricsLines figures).forM printLine

/-! ## Commands -/

def runStats (input : String) (json : Bool) : Command m Unit := do
  let c ← loadCircuit input
  let figures := CircuitMetrics.ofCircuit c
  if json then printLine (figures.toJson.text .indented)
  else
    printLine s!"Circuit {input}"
    printMetrics figures

def compile (passes : List Pass) (c : Circuit) : Except (Failure PassError) Compilation :=
  match (Pipeline.run passes).run { circuit := c } with
  | .ok _ s => .ok s
  | .error e _ => .error e

/-- Prints how much was cancelled, if anything was looked for. -/
def printCancellation (stats? : Option CancellationStats) : Command m Unit :=
  match stats? with
  | none => return ()
  | some stats => printLine s!"  Cancelled {stats.pairs} pairs in {stats.sweeps} sweeps"

/-- Without an output, the result goes beside the input. -/
def runOptimize (input : String) (output? : Option String) (level : Nat) : Command m Unit := do
  printLine s!"→ Optimizing {input} (level {level})"
  let c ← loadCircuit input
  let before := CircuitMetrics.ofCircuit c
  printLine (s!"  Loaded: {before.numQubits} qubits, {before.numOperations} ops, " ++
    s!"depth {before.depth}")
  let passes := Pipeline.ofLevel level
  printLine s!"  Running {passes.length} passes"
  let s ← orFailWith .compiling (compile passes c)
  printLine "✓ Optimization complete"
  printCancellation s.properties.cancellation?
  printMetrics (s.properties.metrics?.getD (CircuitMetrics.ofCircuit s.circuit))
  let output := output?.getD (siblingPath input "optimized")
  saveCircuit s.circuit output
  printLine s!"  Output: {output}"

def runCheck (input : String) : Command m Unit := do
  let c ← loadCircuit input
  orFail (.inconsistent input) c.check
  printLine (s!"✓ {input} is consistent ({c.numVertices} vertices, {c.numEdges} edges, " ++
    s!"{c.numParameters} parameters)")

def runConvert (input output : String) : Command m Unit := do
  let c ← loadCircuit input
  saveCircuit c output
  printLine s!"✓ {input} -> {output}"

/-- A ready-made circuit. The number of qubits matters for those that come in all sizes. -/
def demoCircuit (demo : Demo) (numQubits : Nat) : Except (Failure CircuitError) Circuit :=
  match demo with
  | .bell => Samples.bell
  | .ghz => Samples.ghz numQubits
  | .qft => Samples.qft numQubits
  | .cancelCnots => Samples.cancelCnots

/-- Without an output, the description is printed. -/
def runDemo (demo : Demo) (numQubits : Nat) (output? : Option String) : Command m Unit := do
  let c ← orFailWith .building (demoCircuit demo numQubits)
  match output? with
  | some output =>
      saveCircuit c output
      printLine s!"✓ Wrote {c.text} to {output}"
  | none =>
      let text ← orFail .unrenderable ((CircuitDescription.ofCircuit c).render .yaml)
      ExceptT.lift (Host.print text)

def versionNumber : String := "0.1.0"

def runVersion : Command m Unit :=
  [s!"qdag v{versionNumber} - columnar DAG engine for quantum circuits",
    "",
    "Components:",
    "  qdag-ir       Circuit graph engine",
    "  qdag-compile  Pass framework and structural optimizations",
    "  qdag-cli      Command-line interface"].forM printLine

def Invocation.run : Invocation → Command m Unit
  | stats input json => runStats input json
  | optimize input output? level => runOptimize input output? level
  | check input => runCheck input
  | convert input output => runConvert input output
  | demo circuit numQubits output? => runDemo circuit numQubits output?
  | version => runVersion
  | versionNumber => printLine s!"qdag {CommandLine.versionNumber}"

/-- What a run of the program leaves behind. -/
structure Outcome where
  exitCode : Nat
  errors : String
deriving DecidableEq

/-- How a command ends that does not succeed. What the program writes when it panics is left out. -/
def Outcome.ofFailure : Failure CommandError → Outcome
  | .error e => ⟨1, "Error: " ++ e.message ++ "\n"⟩
  | .panic => ⟨101, ""⟩

/-- Runs the program; `none` when the arguments are not understood. -/
def run? (arguments : List String) : Option (m Outcome) :=
  (Invocation.parse? arguments).map fun invocation => do
    match ← invocation.run.run with
    | .ok () => return ⟨0, ""⟩
    | .error failure => return .ofFailure failure

end CircuitDag.CommandLine
