import CircuitDag.CommandLine.Arguments

/-!
# Invocations

What the program is asked to do, and how that is read off its arguments.
-/

set_option autoImplicit false

namespace CircuitDag.CommandLine

/-- The ready-made circuits. -/
inductive Demo where
  | bell
  | ghz
  | qft
  | cancelCnots
deriving DecidableEq, Repr

def Demo.ofName? (name : String) : Option Demo :=
  match name with
  | "bell" => some .bell
  | "ghz" => some .ghz
  | "qft" => some .qft
  | "cancel-cnots" => some .cancelCnots
  | _ => none

inductive Invocation where
  | stats (input : String) (json : Bool)
  | optimize (input : String) (output? : Option String) (level : Nat)
  | check (input : String)
  | convert (input output : String)
  | demo (circuit : Demo) (numQubits : Nat) (output? : Option String)
  /-- Names the version and the components. -/
  | version
  /-- Names the version only. -/
  | versionNumber
deriving DecidableEq

namespace Invocation

def verboseOption : OptionSpec := { name := "verbose", letter? := some 'v', kind := .counter }

def inputOption : OptionSpec := { name := "input", letter? := some 'i', kind := .value }

def outputOption : OptionSpec := { name := "output", letter? := some 'o', kind := .value }

def jsonOption : OptionSpec := { name := "json", kind := .flag }

def levelOption : OptionSpec := { name := "optimization-level", kind := .value }

def numQubitsOption : OptionSpec := { name := "num-qubits", letter? := some 'n', kind := .value }

/-- Reads the arguments of a command, which has some number of operands. -/
def arguments? (specs : List OptionSpec) (numOperands : Nat) (arguments : List String) :
    Option Arguments := do
  let a ← Arguments.parse? (verboseOption :: specs) arguments
  if a.operands.length = numOperands then return a else none

/-- A number of at most eight bits. Negative zero is a zero. -/
def parseLevel? (text : String) : Option Nat := do
  let n ← match text.toList with
    | '-' :: digits =>
        match parseNat? (String.ofList digits) with
        | some 0 => if digits.head? = some '+' then none else some 0
        | _ => none
    | _ => parseNat? text
  if n < UInt8.size then return n else none

def parseCount? (text : String) : Option Nat := do
  let n ← parseNat? text
  if n < UInt64.size then return n else none

/-- Reads an option whose value is a number; `default` is its value when it is not given. -/
def numberOption? (a : Arguments) (spec : OptionSpec) (parse? : String → Option Nat)
    (default : Nat) : Option Nat :=
  match a.value? spec.name with
  | none => some default
  | some text => parse? text

def ofStats? (arguments : List String) : Option Invocation := do
  let a ← arguments? [inputOption, jsonOption] 0 arguments
  return stats (← a.value? "input") (a.has "json")

def ofOptimize? (arguments : List String) : Option Invocation := do
  let a ← arguments? [inputOption, outputOption, levelOption] 0 arguments
  return optimize (← a.value? "input") (a.value? "output")
    (← numberOption? a levelOption parseLevel? 1)

def ofCheck? (arguments : List String) : Option Invocation := do
  let a ← arguments? [inputOption] 0 arguments
  return check (← a.value? "input")

def ofConvert? (arguments : List String) : Option Invocation := do
  let a ← arguments? [inputOption, outputOption] 0 arguments
  return convert (← a.value? "input") (← a.value? "output")

def ofDemo? (arguments : List String) : Option Invocation := do
  let a ← arguments? [numQubitsOption, outputOption] 1 arguments
  let circuit ← a.operands.head?.bind Demo.ofName?
  return demo circuit (← numberOption? a numQubitsOption parseCount? 3) (a.value? "output")

def ofVersion? (arguments : List String) : Option Invocation := do
  discard <| arguments? [] 0 arguments
  return version

def command? (name : String) : Option (List String → Option Invocation) :=
  match name with
  | "stats" => some ofStats?
  | "optimize" => some ofOptimize?
  | "check" => some ofCheck?
  | "convert" => some ofConvert?
  | "demo" => some ofDemo?
  | "version" => some ofVersion?
  | _ => none

/-- The letters before the name of a command: whether the version is asked for. -/
def leadingLetters? : List Char → Option Bool
  | [] => some false
  | 'v' :: rest => leadingLetters? rest
  | 'V' :: _ => some true
  | _ => none

/-- Whether an option before the name of a command asks for the version; `none` for other ones than
those that make the program verbose. -/
def asksVersion? (option : String) : Option Bool :=
  match option.toList with
  | '-' :: '-' :: _ =>
      if option = "--verbose" then some false
      else if option = "--version" then some true
      else none
  | _ :: letters => leadingLetters? letters
  | [] => none

/-- The invocation that arguments ask for; `none` when they are not understood. -/
def parse? : List String → Option Invocation
  | [] => none
  | argument :: rest =>
      if isOption argument then do
        if ← asksVersion? argument then return versionNumber else parse? rest
      else do (← command? argument) rest

end Invocation

end CircuitDag.CommandLine
