import Flowgraph.Yaml.Node
import Flowgraph.Text.Base64

/-! # Decoding YAML documents

A node is decoded into the type that is expected of it. What does not fit is
recorded and left at its default, so that one pass finds all misfits. A few
problems end the decoding at once.
-/

namespace Flowgraph.Yaml

structure Context where
  document : Document
  followed : List Nat := []

abbrev Decode := ReaderT Context (ExceptT Problem (StateM (List String)))

def misfit (line : Nat) (message : String) : Decode Unit :=
  modify (· ++ ["line " ++ toString line ++ ": " ++ message])

/-- Decode the node that a reference stands for, or a node itself. -/
def follow {α : Type} (n : Node) (decode : Node → Decode α) : Decode α := do
  match n with
  | .reference _ name use target =>
    let context ← read
    if context.followed.contains use then throw (.selfReference name)
    match context.document.target target with
    | some n => withReader (fun c => { c with followed := use :: c.followed }) (decode n)
    | none => throw (.unknownAnchor name)
  | n => decode n

def repeatedKeys : List (Node × Node) → List (Node × Node)
  | [] => []
  | (key, _) :: rest =>
    (rest.filter (key.isSameKey ·.1)).map (fun again => (key, again.1)) ++ repeatedKeys rest

def checkKeys (entries : List (Node × Node)) : Decode Bool := do
  let repeated := repeatedKeys entries
  for (first, again) in repeated do
    misfit again.line ("mapping key " ++ Text.quote again.text ++ " already defined at line " ++
      toString first.line)
  return repeated.isEmpty

def shownText (text : String) : String :=
  if 10 < text.utf8ByteSize then Text.takeBytes 7 text ++ "..." else text

def mismatch {α : Type} (n : Node) (expected : String) : Decode (Option α) := do
  let isFine ← match n with
    | .mapping _ _ entries => checkKeys entries
    | _ => pure true
  if isFine then
    let shown := if n.tag = Tag.sequence || n.tag = Tag.mapping then n.text
      else " \x60" ++ shownText n.text ++ "\x60"
    misfit n.line ("cannot unmarshal " ++ n.tag ++ shown ++ " into " ++ expected)
  return none

/-! ## Scalars -/

def scalarOf (tag text : String) : Decode (Scalar × String) := do
  if tag = Tag.binary then
    match Text.decodeBase64 text with
    | some bs => return (.string, Text.decodeUtf8 bs)
    | none => throw .badBinary
  match Scalar.ofTagged tag text with
  | .ok s => return (s, text)
  | .error p => throw p

def decodeScalar {α : Type} (expected : String) (fits : Scalar → String → Option α) (n : Node) :
    Decode (Option α) :=
  follow n fun
    | n@(.scalar _ tag text) => do
      match ← scalarOf tag text with
      | (.null, _) => return none
      | (s, text) => match fits s text with
        | some a => return some a
        | none => mismatch n expected
    | n => mismatch n expected

def decodeString (expected : String) : Node → Decode (Option String) :=
  decodeScalar expected fun _ text => some text

def int64Limit : Float := 9223372036854775808.0

/-- The whole part of a fraction. One that does not fit becomes the least integer. -/
def wholePart (f : Float) : Int :=
  if -int64Limit ≤ f && f < int64Limit then f.toInt64.toInt else -(Nat.pow 2 63 : Nat)

def decodeInt : Node → Decode (Option Int) :=
  decodeScalar "int" fun s _ => match s with
    | .int n => if Decimal.fitsInt64 n then some n else none
    | .float f => if f ≤ int64Limit then some (wholePart f) else none
    | _ => none

def trueWords : List String := ["y", "Y", "yes", "Yes", "YES", "on", "On", "ON"]

def falseWords : List String := ["n", "N", "no", "No", "NO", "off", "Off", "OFF"]

def decodeBool : Node → Decode (Option Bool) :=
  decodeScalar "bool" fun s text => match s with
    | .bool b => some b
    | .string =>
      if trueWords.contains text then some true
      else if falseWords.contains text then some false
      else none
    | _ => none

def isNull : Node → Decode Bool
  | .scalar _ tag text => do
    match ← scalarOf tag text with
    | (.null, _) => return true
    | _ => return false
  | _ => return false

/-! ## Collections -/

def decodeList {α : Type} (expected : String) (item : Node → Decode (Option α)) (n : Node) :
    Decode (Option (List α)) :=
  follow n fun
    | .sequence _ _ items => return some ((← items.mapM item).filterMap id)
    | n => do if ← isNull n then return some [] else mismatch n expected

structure RecordType (α : Type) where
  name : String
  isStrict : Bool
  field : String → Option (Node → α → Decode α)

def isMergeKey : Node → Bool
  | .scalar _ tag text => text = "<<" && tag = Tag.merge
  | _ => false

def mergedNode (entries : List (Node × Node)) : Option Node :=
  (entries.reverse.find? (isMergeKey ·.1)).map (·.2)

def mergeParts : Node → List Node
  | .sequence _ _ items => items
  | n => [n]

def checkPart (n : Node) : Decode Unit := do
  let document := (← read).document
  let isPart := match n with
    | .mapping .. => true
    | .reference _ _ _ target => (document.target target).any Node.isMapping
    | _ => false
  if !isPart then throw .badMerge

/-- The state of filling a record: its value, the keys that later entries cannot set any
more, and those that this mapping has set. -/
structure Filling (α : Type) where
  value : α
  taken : Option (List String)
  done : List String := []

def fillEntry {α : Type} (type : RecordType α) (s : Filling α) (key value : Node) :
    Decode (Filling α) := do
  if isMergeKey key then return s
  match ← decodeString "string" key with
  | none => return s
  | some name =>
    if (s.taken.getD []).contains name then return s
    let s := { s with taken := s.taken.map (name :: ·) }
    match type.field name with
    | some change =>
      if s.done.contains name then
        misfit key.line ("field " ++ name ++ " already set in type " ++ type.name)
        return s
      else return { s with value := ← change value s.value, done := name :: s.done }
    | none =>
      if type.isStrict then
        misfit key.line ("field " ++ name ++ " not found in type " ++ type.name)
      return s

def keyNames (entries : List (Node × Node)) : Decode (List String) :=
  entries.filterMapM fun (key, _) => follow key fun
    | .scalar _ tag text => do
      match ← scalarOf tag text with
      | (.string, text) => return some text
      | _ => return none
    | _ => return none

/-- Fill a record from a mapping. What the mapping is merged with comes last and sets only
keys that are not set yet. -/
def fill {α : Type} (type : RecordType α) :
    Nat → Node → α → Option (List String) → Decode (α × Option (List String))
  | 0, _, a, taken => return (a, taken)
  | fuel + 1, n, a, taken =>
    follow n fun
      | .mapping _ _ entries => do
        if !(← checkKeys entries) then return (a, taken)
        let mut s : Filling α := { value := a, taken }
        for (key, value) in entries do
          s ← fillEntry type s key value
        match mergedNode entries with
        | none => return (s.value, s.taken)
        | some m =>
          let mut state := (s.value, some (← match s.taken with
            | some names => pure names
            | none => keyNames entries))
          for part in mergeParts m do
            checkPart part
            state ← fill type fuel part state.1 state.2
          return (state.1, if s.taken.isSome then state.2 else none)
      | _ => return (a, taken)

def decodeRecord {α : Type} (type : RecordType α) (start : α) (n : Node) : Decode (Option α) :=
  follow n fun
    | n@(.mapping ..) => do
      let (a, _) ← fill type (← read).document.bound n start none
      return some a
    | n => do if ← isNull n then return none else mismatch n type.name

def change {α β : Type} (decode : Node → Decode (Option β)) (put : α → β → α) (n : Node) (a : α) :
    Decode α := do
  match ← decode n with
  | some b => return put a b
  | none => return a

def decodeText {α : Type} (decode : Node → Decode (Option α)) (default : α) (source : String) :
    Except String α := do
  match ← (Document.ofText source).mapError Mistake.message with
  | none => return default
  | some document =>
    match ((decode document.root).run { document }).run.run [] with
    | (.error p, _) => .error (Mistake.message ⟨p, 0⟩)
    | (.ok a, []) => return a.getD default
    | (.ok _, misfits) =>
      .error ("yaml: unmarshal errors:\n  " ++ String.intercalate "\n  " misfits)

end Flowgraph.Yaml
