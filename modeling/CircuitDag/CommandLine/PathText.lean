/-!
# Paths as text

The file name in a path, the extension of the name, and paths beside a path. Slashes separate the
parts of a path.
-/

set_option autoImplicit false

namespace CircuitDag.CommandLine

/-- The parts of a path, empty ones included. -/
def pathParts (path : String) : List String := path.splitOn "/"

/-- The last part of a path that names something. Names that only lead to a directory have none. -/
def fileName? (path : String) : Option String :=
  match ((pathParts path).filter fun part => part ≠ "" ∧ part ≠ ".").getLast? with
  | some ".." => none
  | last? => last?

/-- A name up to its last point and what stands behind it. A point at the front does not count. -/
def splitName (name : String) : String × Option String :=
  let (tail, head) := name.toList.reverse.span (· ≠ '.')
  match head with
  | [] | [_] => (name, none)
  | _ :: stem => (String.ofList stem.reverse, some (String.ofList tail.reverse))

/-- The extension of a path; empty when there is none. -/
def extension (path : String) : String :=
  match fileName? path with
  | none => ""
  | some name => (splitName name).2.getD ""

/-- A directory without the slashes and the points at its end, both from the end on. Nothing but
slashes is the root. -/
def trimDirectory : List Char → List Char
  | [] => []
  | c :: rest =>
      if c = '/' then if rest.all (· = '/') then ['/'] else trimDirectory rest
      else if c = '.' ∧ rest.head? = some '/' then trimDirectory rest
      else c :: rest

/-- The directory of a path that ends in a name; empty when there is none. -/
def directory (path : String) : String :=
  String.ofList (trimDirectory (path.toList.reverse.dropWhile (· ≠ '/'))).reverse

def joinPath (directory name : String) : String :=
  if directory.isEmpty then name
  else if directory.endsWith "/" then directory ++ name
  else directory ++ "/" ++ name

/-- The path in the same directory whose name has a suffix before its extension. -/
def siblingPath (path suffix : String) : String :=
  match fileName? path with
  | none => joinPath path ("_" ++ suffix)
  | some name =>
      let (stem, extension?) := splitName name
      let name := match extension? with
        | none | some "" => stem ++ "_" ++ suffix
        | some extension => stem ++ "_" ++ suffix ++ "." ++ extension
      joinPath (directory path) name

end CircuitDag.CommandLine
