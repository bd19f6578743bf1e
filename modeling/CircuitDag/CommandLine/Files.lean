import CircuitDag.CommandLine.PathText

/-!
# Files

What the commands need from their surroundings: a place to print and files. `Workspace` is such
surroundings as a value: a tree of files and the text printed so far. Around the tree there are
directories of which nothing else is known.
-/

set_option autoImplicit false

namespace CircuitDag.CommandLine

/-- Why a file cannot be read or written. -/
inductive FileError where
  /-- The system refused. -/
  | refused (description : String) (code : Nat)
  /-- The file does not hold text. -/
  | notText
deriving DecidableEq, Repr

namespace FileError

def notFound : FileError := refused "No such file or directory" 2

def notADirectory : FileError := refused "Not a directory" 20

def isADirectory : FileError := refused "Is a directory" 21

def nameTooLong : FileError := refused "File name too long" 36

def message : FileError → String
  | refused description code => s!"{description} (os error {code})"
  | notText => "stream did not contain valid UTF-8"

end FileError

/-- Surroundings in which commands run. -/
class Host (m : Type → Type) where
  print : String → m Unit
  fileExists : String → m Bool
  readFile : String → m (Except FileError String)
  writeFile : String → String → m (Except FileError Unit)

/-- The names that lead to a file or directory from the one in which the commands run. Directories
above that one are reached by `..` names, and the place of the uppermost one is `/`. -/
abbrev Place := List String

namespace Place

def root : Place := ["/"]

def systemNames : List String :=
  ["bin", "boot", "dev", "etc", "home", "lib", "media", "mnt", "opt", "proc", "root", "run", "sbin",
    "srv", "sys", "tmp", "usr", "var"]

/-- Whether a place is a directory that is there without any file in it. -/
def isPermanent : Place → Bool
  | ["/"] => true
  | ["/", name] => systemNames.contains name
  | place => place.all (· = "..")

/-- The directory above a directory. Nothing is above the uppermost one. -/
def parent (place : Place) : Place :=
  if place = root then root else if place.all (· = "..") then ".." :: place else place.dropLast

/-- The place at which a walk along a path starts. -/
def start (path : String) : Place := if path.startsWith "/" then root else []

/-- The parts of a path along which a file is created. A slash at the end makes the last name one of
a directory, which is not looked for. -/
def creationParts (path : String) : List String :=
  let names := (pathParts path).reverse.dropWhile (· = "")
  if path.endsWith "/" then (names.drop 1).reverse ++ [""] else names.reverse

end Place

def maxNameLength : Nat := 255

def maxPathLength : Nat := 4095

/-- A tree of files, given by their places, and the printed text. -/
structure Workspace where
  files : List (Place × String) := []
  printed : String := ""

namespace Workspace

def ofFiles (files : List (String × String)) : Workspace :=
  { files := files.map fun (path, content) =>
      ((pathParts path).filter fun part => part ≠ "" ∧ part ≠ ".", content) }

def content? (w : Workspace) (place : Place) : Option String := w.files.lookup place

/-- Directories are there for the files in them; those around the tree are always there. -/
def isDirectory (w : Workspace) (place : Place) : Bool :=
  place.isPermanent || w.files.any fun (file, _) => place.isPrefixOf file && place ≠ file

/-- Goes from a directory to one of its parts; nothing need be there yet. -/
def enter (w : Workspace) (directory : Place) (part : String) : Except FileError Place :=
  if !w.isDirectory directory then
    .error (if (w.content? directory).isSome then .notADirectory else .notFound)
  else if part = "" ∨ part = "." then .ok directory
  else if part = ".." then .ok directory.parent
  else if maxNameLength < part.utf8ByteSize then .error .nameTooLong
  else .ok (directory ++ [part])

/-- The place that some parts of a path lead to, if the path is one at all. -/
def walk (w : Workspace) (path : String) (parts : List String) : Except FileError Place :=
  if path.isEmpty then .error .notFound
  else if maxPathLength < path.utf8ByteSize then .error .nameTooLong
  else parts.foldlM w.enter (Place.start path)

def fileExists (w : Workspace) (path : String) : Bool :=
  match w.walk path (pathParts path) with
  | .ok place => (w.content? place).isSome || w.isDirectory place
  | .error _ => false

def readFile (w : Workspace) (path : String) : Except FileError String := do
  let place ← w.walk path (pathParts path)
  match w.content? place with
  | some content => .ok content
  | none => .error (if w.isDirectory place then .isADirectory else .notFound)

/-- The text of the file with a path, if there is one. -/
def text? (w : Workspace) (path : String) : Option String := (w.readFile path).toOption

def put (w : Workspace) (place : Place) (content : String) : Workspace :=
  { w with files := (place, content) :: w.files.filter (·.1 ≠ place) }

/-- Writes a file in a directory that exists. A path that ends in a slash names a directory. -/
def writeFile (w : Workspace) (path : String) (content : String) : Except FileError Workspace := do
  let place ← w.walk path (Place.creationParts path)
  if w.isDirectory place then .error .isADirectory else .ok (w.put place content)

instance : Host (StateM Workspace) where
  print text := modify fun w => { w with printed := w.printed ++ text }
  fileExists path := do return (← get).fileExists path
  readFile path := do return (← get).readFile path
  writeFile path content := do
    match (← get).writeFile path content with
    | .ok w => set w; return .ok ()
    | .error e => return .error e

end Workspace

end CircuitDag.CommandLine
