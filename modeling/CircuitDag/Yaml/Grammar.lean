import CircuitDag.Yaml.Node

/-!
# The grammar of YAML

Nodes are put together from tokens. A node can be left out where a key, a value or an item is due;
what may follow decides about that.
-/

set_option autoImplicit false

namespace CircuitDag.Yaml

/-! ## Tags -/

abbrev TagHandles := List (String × String)

def defaultHandles : TagHandles := [("!", "!"), ("!!", "tag:yaml.org,2002:")]

/-- The tag that is written; its handle has to be known. -/
def TagText.resolve? (handles : TagHandles) (tag : TagText) : Option String :=
  if tag.handle.isEmpty then some tag.suffix
  else (handles.lookup tag.handle).map (· ++ tag.suffix)

/-- The anchor and the tag at the front, in either order and both optional. -/
def readLabel? (handles : TagHandles) : List Token → Option (Label String × List Token)
  | .anchor name :: .tag tag :: rest | .tag tag :: .anchor name :: rest => do
      return ({ anchor? := some name, tag? := some (← tag.resolve? handles) }, rest)
  | .anchor name :: rest => some ({ anchor? := some name }, rest)
  | .tag tag :: rest => do return ({ tag? := some (← tag.resolve? handles) }, rest)
  | rest => some ({}, rest)

/-! ## Nodes -/

def endsItem : Token → Bool
  | .blockEntry | .blockEnd => true
  | _ => false

/-- The tokens that end a key or a value of a block mapping. -/
def endsPairPart : Token → Bool
  | .key | .value | .blockEnd => true
  | _ => false

/-- The tokens that end an item of a sequence that is not indented in its mapping. -/
def endsIndentlessItem (token : Token) : Bool := endsItem token || endsPairPart token

def endsFlowValue (close : Token) (token : Token) : Bool := token = .flowEntry || token = close

def endsFlowKey (close : Token) (token : Token) : Bool :=
  token = .value || endsFlowValue close token

def skipFlowEntry? (first : Bool) (tokens : List Token) : Option (List Token) :=
  if first then some tokens
  else match tokens with
    | .flowEntry :: rest => some rest
    | _ => none

mutual

/-- Reads a node. Blocks may start only where `block` holds, sequences that are not indented only
where `indentless` holds. -/
def node? (handles : TagHandles) : Nat → (block indentless : Bool) → List Token →
    Option (Node String × List Token)
  | 0, _, _, _ => none
  | fuel + 1, block, indentless, tokens =>
      match tokens with
      | .reference name :: rest => some (.reference name, rest)
      | tokens => do
          let (label, tokens) ← readLabel? handles tokens
          match tokens, block, indentless with
          | .scalar style text :: rest, _, _ => return (.scalar label style text, rest)
          | .flowSequenceStart :: rest, _, _ => do
              let (items, rest) ← flowItems? handles fuel true rest
              return (.sequence label items, rest)
          | .flowMappingStart :: rest, _, _ => do
              let (pairs, rest) ← flowPairs? handles fuel true rest
              return (.mapping label pairs, rest)
          | .blockSequenceStart :: rest, true, _ => do
              let (items, rest) ← blockItems? handles fuel rest
              return (.sequence label items, rest)
          | .blockMappingStart :: rest, true, _ => do
              let (pairs, rest) ← blockPairs? handles fuel rest
              return (.mapping label pairs, rest)
          | .blockEntry :: rest, _, true => do
              let (items, rest) ← indentlessItems? handles fuel (.blockEntry :: rest)
              return (.sequence label items, rest)
          | tokens, _, _ => if label.isEmpty then none else return (.scalar label .plain "", tokens)

/-- Reads a node, unless the next token shows that it is left out. -/
def optionalNode? (handles : TagHandles) (stop : Token → Bool) : Nat → (block : Bool) →
    (indentless : Bool) → List Token → Option (Node String × List Token)
  | 0, _, _, _ => none
  | fuel + 1, block, indentless, tokens =>
      if tokens.head?.any stop then some (.missing, tokens)
      else node? handles fuel block indentless tokens

def blockItems? (handles : TagHandles) : Nat → List Token →
    Option (List (Node String) × List Token)
  | 0, _ => none
  | fuel + 1, tokens =>
      match tokens with
      | .blockEntry :: rest => do
          let (item, rest) ← optionalNode? handles endsItem fuel true false rest
          let (items, rest) ← blockItems? handles fuel rest
          return (item :: items, rest)
      | .blockEnd :: rest => some ([], rest)
      | _ => none

def indentlessItems? (handles : TagHandles) : Nat → List Token →
    Option (List (Node String) × List Token)
  | 0, _ => none
  | fuel + 1, tokens =>
      match tokens with
      | .blockEntry :: rest => do
          let (item, rest) ← optionalNode? handles endsIndentlessItem fuel true false rest
          let (items, rest) ← indentlessItems? handles fuel rest
          return (item :: items, rest)
      | rest => some ([], rest)

def blockPairs? (handles : TagHandles) : Nat → List Token →
    Option (List (Node String × Node String) × List Token)
  | 0, _ => none
  | fuel + 1, tokens =>
      match tokens with
      | .key :: rest => do
          let (key, rest) ← optionalNode? handles endsPairPart fuel true true rest
          let (value, rest) ← value? handles endsPairPart fuel true rest
          let (pairs, rest) ← blockPairs? handles fuel rest
          return ((key, value) :: pairs, rest)
      | .blockEnd :: rest => some ([], rest)
      | _ => none

/-- Reads a value with its colon; without a colon, or where it ends at once, it is left out. -/
def value? (handles : TagHandles) (stop : Token → Bool) : Nat → (block : Bool) → List Token →
    Option (Node String × List Token)
  | 0, _, _ => none
  | fuel + 1, block, tokens =>
      match tokens with
      | .value :: rest => optionalNode? handles stop fuel block block rest
      | rest => some (.missing, rest)

/-- Reads the items between brackets up to the closing one. A pair can stand as an item; it makes a
mapping of its own. A key of such a pair that is left out takes the token behind it along. -/
def flowItems? (handles : TagHandles) : Nat → (first : Bool) → List Token →
    Option (List (Node String) × List Token)
  | 0, _, _ => none
  | _ + 1, _, .flowSequenceEnd :: rest => some ([], rest)
  | fuel + 1, first, tokens => do
      let tokens ← skipFlowEntry? first tokens
      match tokens with
      | .flowSequenceEnd :: rest => some ([], rest)
      | .key :: rest => do
          let missing := rest.head?.any (endsFlowKey .flowSequenceEnd)
          let (key, rest) ←
            optionalNode? handles (endsFlowKey .flowSequenceEnd) fuel false false rest
          let rest := if missing then rest.drop 1 else rest
          let (value, rest) ← value? handles (endsFlowValue .flowSequenceEnd) fuel false rest
          let (items, rest) ← flowItems? handles fuel false rest
          return (.mapping {} [(key, value)] :: items, rest)
      | tokens => do
          let (item, rest) ← node? handles fuel false false tokens
          let (items, rest) ← flowItems? handles fuel false rest
          return (item :: items, rest)

/-- Reads the pairs between braces up to the closing one. A node without a colon is a key. -/
def flowPairs? (handles : TagHandles) : Nat → (first : Bool) → List Token →
    Option (List (Node String × Node String) × List Token)
  | 0, _, _ => none
  | _ + 1, _, .flowMappingEnd :: rest => some ([], rest)
  | fuel + 1, first, tokens => do
      let tokens ← skipFlowEntry? first tokens
      match tokens with
      | .flowMappingEnd :: rest => some ([], rest)
      | .key :: rest => do
          let (key, rest) ←
            optionalNode? handles (endsFlowKey .flowMappingEnd) fuel false false rest
          let (value, rest) ← value? handles (endsFlowValue .flowMappingEnd) fuel false rest
          let (pairs, rest) ← flowPairs? handles fuel false rest
          return ((key, value) :: pairs, rest)
      | tokens => do
          let (key, rest) ← node? handles fuel false false tokens
          let (pairs, rest) ← flowPairs? handles fuel false rest
          return ((key, .missing) :: pairs, rest)

end

/-! ## Documents -/

/-- The directives before a document: whether there is one for the version, and the handles. -/
structure Directives where
  version : Bool := false
  handles : TagHandles := []

/-- Reads the directives at the front. The version must be 1.1 or 1.2, and nothing may be said
twice. -/
def readDirectives? (d : Directives) : List Token → Option (Directives × List Token)
  | .versionDirective major minor :: rest =>
      if d.version || major ≠ 1 || (minor ≠ 1 && minor ≠ 2) then none
      else readDirectives? { d with version := true } rest
  | .tagDirective handle start :: rest =>
      if (d.handles.lookup handle).isSome then none
      else readDirectives? { d with handles := d.handles ++ [(handle, start)] } rest
  | rest => some (d, rest)

def startsNoContent : List Token → Bool
  | [] | .versionDirective .. :: _ | .tagDirective .. :: _ | .documentStart :: _
  | .documentEnd :: _ => true
  | _ => false

/-- Reads the root of a document. Every token is looked at by at most three nested rules. -/
def root? (handles : TagHandles) (tokens : List Token) : Option (Node String × List Token) :=
  node? (handles ++ defaultHandles) (3 * tokens.length + 3) true false tokens

def Node.ofTokens? (tokens : List Token) : Option (Node String) := do
  let (directives, rest) ← readDirectives? {} tokens
  let (root, rest) ← match rest with
    | .documentStart :: rest =>
        if startsNoContent rest then some (.missing, rest) else root? directives.handles rest
    | rest => if rest.length < tokens.length then none else root? [] rest
  if (rest.dropWhile (· = .documentEnd)).isEmpty then return root else none

end CircuitDag.Yaml
