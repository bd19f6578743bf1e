import CircuitDag.Yaml.Source
import CircuitDag.Yaml.Token

/-!
# Names, tags and directives

Reading anchors and aliases, tags, and the directives that stand before a document.
-/

set_option autoImplicit false

namespace CircuitDag.Yaml

/-- Reads the name of an anchor or alias, its indicator left out. -/
def readName? (s : Source) : Option (String × Source) :=
  let (name, s) := s.span isNameChar
  let c := s.peek
  if name.isEmpty || !(endsWord c || "?:,]\x7d%@`".toList.contains c) then none
  else some (String.ofList name, s)

/-! ## Tags -/

/-- How many octets an encoded character has, by its first octet. -/
def octetCount? (octet : Nat) : Option Nat :=
  if octet < 0x80 then some 1
  else if octet < 0xc0 then none
  else if octet < 0xe0 then some 2
  else if octet < 0xf0 then some 3
  else if octet < 0xf8 then some 4
  else none

/-- An octet given by a percent sign and two hexadecimal digits. -/
def readOctet? (s : Source) : Option (Nat × Source) :=
  match s with
  | a :: b :: c :: rest =>
      if a.char = '%' then (hexValue? [b.char, c.char]).map fun octet => (octet, rest) else none
  | _ => none

def readTrailingOctets? : Nat → Source → Option (List Nat × Source)
  | 0, s => some ([], s)
  | n + 1, s => do
      let (octet, s) ← readOctet? s
      if octet < 0x80 || 0xc0 ≤ octet then none
      else do
        let (octets, s) ← readTrailingOctets? n s
        return (octet :: octets, s)

/-- The octets of a character, all escaped. -/
def readOctets? (s : Source) : Option (List Nat × Source) := do
  let (octet, s) ← readOctet? s
  let count ← octetCount? octet
  let (octets, s) ← readTrailingOctets? (count - 1) s
  return (octet :: octets, s)

/-- The characters of tags. Verbatim tags may hold some more. -/
def isTagChar (verbatim : Bool) (c : Char) : Bool :=
  isNameChar c || ";/?:@&=+$.!~*'()".toList.contains c || (verbatim && ",[]".toList.contains c)

/-- Reads the characters of a tag, at most `fuel`. Escaped octets stay apart. -/
def readTagChars? (verbatim : Bool) : Nat → Source → Option (List Char × Source)
  | 0, s => some ([], s)
  | fuel + 1, s =>
      let c := s.peek
      if c = '%' then do
        let (octets, s) ← readOctets? s
        let (rest, s) ← readTagChars? verbatim fuel s
        return (octets.map Char.ofNat ++ rest, s)
      else if isTagChar verbatim c then do
        let (rest, s) ← readTagChars? verbatim fuel (s.drop 1)
        return (c :: rest, s)
      else some ([], s)

def readTagText? (verbatim : Bool) (s : Source) : Option (List Char × Source) :=
  readTagChars? verbatim s.length s

/-- Reads an exclamation mark, the name characters behind it, and a second mark if there is one. -/
def readHandle? (s : Source) : Option (List Char × Source) :=
  if s.peek ≠ '!' then none
  else
    let (name, s) := Source.span (s.drop 1) isNameChar
    if s.peek = '!' then some ('!' :: name ++ ['!'], s.drop 1) else some ('!' :: name, s)

/-- Whether a handle is a name between two marks, which may be empty. -/
def isNamedHandle (handle : List Char) : Bool :=
  handle.length ≥ 2 && handle.getLast? = some '!'

/-- Reads a verbatim tag, its exclamation mark left out. -/
def readVerbatimTag? (s : Source) : Option (TagText × Source) := do
  let (suffix, s) ← readTagText? true (s.drop 1)
  if suffix.isEmpty || s.peek ≠ '>' then none
  else return (⟨"", String.ofList suffix⟩, s.drop 1)

/-- Reads a tag with a handle. A lone exclamation mark is a tag of its own. -/
def readShorthandTag? (s : Source) : Option (TagText × Source) := do
  let (handle, s) ← readHandle? s
  let (rest, s) ← readTagText? false s
  if isNamedHandle handle then
    if rest.isEmpty then none else return (⟨String.ofList handle, String.ofList rest⟩, s)
  else
    let suffix := handle.drop 1 ++ rest
    if suffix.isEmpty then return (⟨"", "!"⟩, s) else return (⟨"!", String.ofList suffix⟩, s)

/-- Reads a tag. A blank, or a comma inside brackets, has to follow. -/
def readTag? (flow : Bool) (s : Source) : Option (TagText × Source) := do
  let (tag, s) ←
    if Source.peek (s.drop 1) = '<' then readVerbatimTag? (s.drop 1) else readShorthandTag? s
  if endsWord s.peek || (flow && s.peek = ',') then return (tag, s) else none

/-! ## Directives -/

def readVersionNumber? (s : Source) : Option (Nat × Source) :=
  let (digits, s) := s.span Char.isDigit
  if digits.isEmpty || 9 < digits.length then none
  else some (digits.foldl (fun n c => 10 * n + (c.toNat - '0'.toNat)) 0, s)

def readVersion? (s : Source) : Option (Token × Source) := do
  let (major, s) ← readVersionNumber? (s.skipWhile isBlank)
  if s.peek ≠ '.' then none
  else do
    let (minor, s) ← readVersionNumber? (s.drop 1)
    return (.versionDirective major minor, s)

/-- The value of a tag directive: a handle and the start of the tags that it stands for. -/
def readTagDirective? (s : Source) : Option (Token × Source) := do
  let (handle, s) ← readHandle? (s.skipWhile isBlank)
  if (handle ≠ ['!'] && !isNamedHandle handle) || !isBlank s.peek then none
  else do
    let (start, s) ← readTagText? true (s.skipWhile isBlank)
    if start.isEmpty || !endsWord s.peek then none
    else return (.tagDirective (String.ofList handle) (String.ofList start), s)

/-- Reads a directive with the rest of its line, its percent sign left out. -/
def readDirective? (s : Source) : Option (Token × Source) := do
  let (name, s) := s.span isNameChar
  if !endsWord s.peek then none
  else do
    let (token, s) ← match String.ofList name with
      | "YAML" => readVersion? s
      | "TAG" => readTagDirective? s
      | _ => none
    return (token, ← s.finishLine?)

end CircuitDag.Yaml
