/-!
# Command line arguments

Arguments are options, with or without a value, and operands. An option has a long name and may have
a letter; letters can be run together, and a value can follow its option in the same argument.
-/

set_option autoImplicit false

namespace CircuitDag.CommandLine

inductive OptionKind where
  /-- Takes no value and may be given once. -/
  | flag
  /-- Takes no value and may be repeated. -/
  | counter
  /-- Takes a value and may be given once. -/
  | value
deriving DecidableEq, Repr

/-- An option that a command understands. -/
structure OptionSpec where
  name : String
  letter? : Option Char := none
  kind : OptionKind
deriving DecidableEq

/-- The arguments of a command. -/
structure Arguments where
  /-- The options that were given, with their values. -/
  options : List (OptionSpec × String) := []
  operands : List String := []
deriving DecidableEq

namespace Arguments

def has (a : Arguments) (name : String) : Bool := a.options.any fun (spec, _) => spec.name = name

def value? (a : Arguments) (name : String) : Option String :=
  (a.options.find? fun (spec, _) => spec.name = name).map (·.2)

/-- Adds an option, unless it is given again and must not be. -/
def add? (a : Arguments) (spec : OptionSpec) (value : String) : Option Arguments :=
  if spec.kind ≠ .counter ∧ a.has spec.name then none
  else some { a with options := a.options ++ [(spec, value)] }

end Arguments

/-- Whether an argument is an option; a lone hyphen is not. -/
def isOption (argument : String) : Bool :=
  match argument.toList with
  | '-' :: _ :: _ => true
  | _ => false

/-- What has been found out about an argument. -/
inductive Scanned where
  | done (arguments : Arguments)
  /-- The value of an option is in the next argument. -/
  | awaiting (arguments : Arguments) (spec : OptionSpec)

/-- Reads letters that are run together. Behind a letter that takes a value stands the value, with
or without an equals sign. -/
def scanLetters? (specs : List OptionSpec) (a : Arguments) : List Char → Option Scanned
  | [] => some (.done a)
  | letter :: rest => do
      let spec ← specs.find? (·.letter? = some letter)
      if spec.kind = .value then
        match rest with
        | [] => return .awaiting a spec
        | '=' :: value => return .done (← a.add? spec (String.ofList value))
        | value => return .done (← a.add? spec (String.ofList value))
      else scanLetters? specs (← a.add? spec "") rest

/-- Reads an option by its long name. A value may follow behind an equals sign. -/
def scanName? (specs : List OptionSpec) (a : Arguments) (text : List Char) : Option Scanned := do
  let (name, tail) := text.span (· ≠ '=')
  let spec ← specs.find? (·.name.toList = name)
  match spec.kind, tail with
  | .value, [] => return .awaiting a spec
  | .value, _ :: value => return .done (← a.add? spec (String.ofList value))
  | _, [] => return .done (← a.add? spec "")
  | _, _ => none

def scanArgument? (specs : List OptionSpec) (a : Arguments) (argument : String) :
    Option Scanned :=
  match argument.toList with
  | '-' :: '-' :: text => scanName? specs a text
  | '-' :: letter :: rest => scanLetters? specs a (letter :: rest)
  | _ => some (.done { a with operands := a.operands ++ [argument] })

/-- Reads all arguments. Two hyphens end the options. A value in an argument of its own must not
look like an option. -/
def scanArguments? (specs : List OptionSpec) : Option OptionSpec → Arguments → List String →
    Option Arguments
  | none, a, [] => some a
  | some _, _, [] => none
  | some spec, a, value :: rest =>
      if isOption value then none
      else do scanArguments? specs none (← a.add? spec value) rest
  | none, a, argument :: rest =>
      if argument = "--" then some { a with operands := a.operands ++ rest }
      else do
        match ← scanArgument? specs a argument with
        | .done a => scanArguments? specs none a rest
        | .awaiting a spec => scanArguments? specs (some spec) a rest

def Arguments.parse? (specs : List OptionSpec) (arguments : List String) : Option Arguments :=
  scanArguments? specs none {} arguments

/-- A number, with a plus sign or without. -/
def parseNat? (text : String) : Option Nat :=
  let digits := match text.toList with
    | '+' :: rest => rest
    | text => text
  if digits.isEmpty ∨ digits.any (fun c => !c.isDigit) then none
  else some (digits.foldl (fun n c => 10 * n + (c.toNat - '0'.toNat)) 0)

end CircuitDag.CommandLine
