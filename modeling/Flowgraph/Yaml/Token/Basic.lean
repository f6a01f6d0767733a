import Flowgraph.Yaml.Cursor

/-! # YAML tokens -/

namespace Flowgraph.Yaml

inductive TokenKind
  | streamStart
  | streamEnd
  | version (major minor : Nat)
  | tagHandle (handle start : String)
  | documentStart
  | documentEnd
  | blockSequence
  | blockMapping
  | blockEnd
  | flowSequence
  | flowSequenceEnd
  | flowMapping
  | flowMappingEnd
  | blockEntry
  | flowEntry
  | key
  | value
  | reference (name : String)
  | anchor (name : String)
  | tag (handle suffix : String)
  | scalar (text : String) (isPlain : Bool)
  deriving DecidableEq, Repr

structure Token where
  kind : TokenKind
  mark : Mark
  deriving DecidableEq, Repr

end Flowgraph.Yaml
