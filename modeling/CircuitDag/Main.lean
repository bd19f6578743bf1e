import CircuitDag.CommandLine.Run

/-!
# The program

Runs the command line on the files of the system.
-/

set_option autoImplicit false

namespace CircuitDag.CommandLine

def FileError.ofSystem (e : IO.Error) : FileError :=
  match e with
  | .noFileOrDirectory _ code details | .inappropriateType (some _) code details
  | .permissionDenied (some _) code details | .resourceExhausted (some _) code details
  | .invalidArgument (some _) code details | .alreadyExists (some _) code details =>
      .refused details code.toNat
  | .permissionDenied none code details | .inappropriateType none code details
  | .resourceExhausted none code details | .invalidArgument none code details
  | .alreadyExists none code details | .otherError code details | .hardwareFault code details
  | .unsatisfiedConstraints code details | .illegalOperation code details
  | .resourceBusy code details =>
      .refused details code.toNat
  | _ => .notText

def FileError.isMissing (e : FileError) : Bool :=
  e = .notFound || e = .notADirectory || e = .nameTooLong

instance : Host IO where
  print text := do (← IO.getStdout).putStr text
  fileExists path := do
    try
      discard <| IO.FS.Handle.mk path .read
      return true
    catch e => return !(FileError.ofSystem e).isMissing
  readFile path := do
    try return .ok (← IO.FS.readFile path) catch e => return .error (.ofSystem e)
  writeFile path content := do
    try return .ok (← IO.FS.writeFile path content) catch e => return .error (.ofSystem e)

end CircuitDag.CommandLine

open CircuitDag.CommandLine in
def main (arguments : List String) : IO UInt32 := do
  match run? arguments with
  | none =>
      (← IO.getStderr).putStrLn
        "Usage: qdag [-v] stats|optimize|check|convert|demo|version [OPTIONS]"
      return 2
  | some outcome =>
      let outcome ← outcome
      (← IO.getStderr).putStr outcome.errors
      return outcome.exitCode.toUInt32
