/-!
# YAML tokens

The words of YAML text. The structure of blocks, which is given by indentation, shows as tokens as
well.
-/

set_option autoImplicit false

namespace CircuitDag.Yaml

/-- How a scalar is written. -/
inductive ScalarStyle where
  | plain
  | singleQuoted
  | doubleQuoted
  | literal
  | folded
deriving DecidableEq, Repr

/-- A tag as it is written: a handle, which stands for the start of the tag, and the rest. A
verbatim tag has an empty handle. -/
structure TagText where
  handle : String
  suffix : String
deriving DecidableEq

inductive Token where
  | versionDirective (major minor : Nat)
  | tagDirective (handle start : String)
  | documentStart
  | documentEnd
  | blockSequenceStart
  | blockMappingStart
  | blockEnd
  | flowSequenceStart
  | flowSequenceEnd
  | flowMappingStart
  | flowMappingEnd
  | blockEntry
  | flowEntry
  | key
  | value
  | reference (name : String)
  | anchor (name : String)
  | tag (text : TagText)
  | scalar (style : ScalarStyle) (text : String)
deriving DecidableEq

end CircuitDag.Yaml
