import Flowgraph.Yaml.Token.Queue
import Flowgraph.Yaml.Scalar

/-! # YAML documents

A document is a tree of nodes. A reference stands for the node that its anchor
marks, which may be a node around the reference, so that documents keep their marked
nodes by number. Only the first document of a text is read.
-/

namespace Flowgraph.Yaml

/-- A node, with the line it starts at, counted from one, and its tag in short form. -/
inductive Node
  | scalar (line : Nat) (tag text : String)
  | sequence (line : Nat) (tag : String) (items : List Node)
  | mapping (line : Nat) (tag : String) (entries : List (Node × Node))
  /-- The `use`-th reference of the document stands for the marked node of number `target`. -/
  | reference (line : Nat) (name : String) (use target : Nat)

namespace Node

def line : Node → Nat
  | scalar line .. | sequence line .. | mapping line .. | reference line .. => line

def tag : Node → String
  | scalar _ tag _ | sequence _ tag _ | mapping _ tag _ => tag
  | reference .. => ""

def text : Node → String
  | scalar _ _ text => text
  | reference _ name .. => name
  | _ => ""

def isMapping : Node → Bool
  | mapping .. => true
  | _ => false

def isSameKey : Node → Node → Bool
  | scalar _ _ a, scalar _ _ b => a = b
  | reference _ a .., reference _ b .. => a = b
  | sequence .., sequence .. | mapping .., mapping .. => true
  | _, _ => false

end Node

structure Document where
  root : Node
  marked : List (Nat × Node)
  bound : Nat

def Document.target (d : Document) (number : Nat) : Option Node :=
  (d.marked.find? (·.1 = number)).map (·.2)

structure Reader where
  queue : Queue
  tagHandles : List (String × String) := []
  anchors : List (String × Nat) := []
  anchorCount : Nat := 0
  referenceCount : Nat := 0
  marked : List (Nat × Node) := []

abbrev ReadM := StateT Reader (Except Mistake)

namespace Read

def scan {α : Type} (act : ScanM α) : ReadM α := do
  let r ← get
  let (a, queue) ← act.run r.queue
  set { r with queue }
  return a

def peek : ReadM Token := scan Scan.peek

def advance : ReadM Unit := scan Scan.advance

def fail {α : Type} (around : Mark) (t : Token) (p : Problem) : ReadM α :=
  throw (.between p around.line t.mark.line)

def emptyNode (m : Mark) : Node := .scalar (m.line + 1) Tag.null ""

/-! ## Properties -/

structure Properties where
  start : Mark
  anchor : Option String := none
  tag : String := ""

def resolveTag (start : Mark) (t : Token) (handle suffix : String) : ReadM String := do
  if handle = "" then return suffix
  let full := match (← get).tagHandles.find? (·.1 = handle) with
    | some (_, first) => first ++ suffix
    | none => ""
  if full = "" then fail start t .unknownTagHandle
  return full

def properties : ReadM Properties := do
  let first ← peek
  match first.kind with
  | .anchor name =>
    advance
    let second ← peek
    match second.kind with
    | .tag handle suffix =>
      advance
      let _ ← peek
      return ⟨first.mark, some name, ← resolveTag first.mark second handle suffix⟩
    | _ => return { start := first.mark, anchor := some name }
  | .tag handle suffix =>
    advance
    let second ← peek
    match second.kind with
    | .anchor name =>
      advance
      let _ ← peek
      return ⟨first.mark, some name, ← resolveTag first.mark first handle suffix⟩
    | _ => return { start := first.mark, tag := ← resolveTag first.mark first handle suffix }
  | _ => return { start := first.mark }

def Properties.line (p : Properties) : Nat := p.start.line + 1

def Properties.tagOr (p : Properties) (tag : String) : String :=
  if p.tag = "" || p.tag = "!" then tag else Tag.shorten p.tag

def Properties.scalar (p : Properties) (text : String) (isPlain : Bool) : Node :=
  let tag := if !isPlain then Tag.string
    else if text = "<<" then Tag.merge
    else (Scalar.ofPlain text).tag
  .scalar p.line (p.tagOr tag) text

def enter (p : Properties) : ReadM Nat := do
  let r ← get
  match p.anchor with
  | none => return 0
  | some name =>
    set { r with anchors := (name, r.anchorCount) :: r.anchors, anchorCount := r.anchorCount + 1 }
    return r.anchorCount

def leave (p : Properties) (number : Nat) (n : Node) : ReadM Node := do
  if p.anchor.isSome then modify fun r => { r with marked := (number, n) :: r.marked }
  return n

def referenceNode (t : Token) (name : String) : ReadM Node := do
  let r ← get
  match r.anchors.find? (·.1 = name) with
  | none => throw ⟨.unknownAnchor name, 0⟩
  | some (_, target) =>
    set { r with referenceCount := r.referenceCount + 1 }
    return .reference (t.mark.line + 1) name r.referenceCount target

/-! ## Nodes -/

def orEmpty (m : Mark) (isMissing : TokenKind → Bool) (node : ReadM Node) : ReadM Node := do
  if isMissing (← peek).kind then return emptyNode m else node

def endsEntry : TokenKind → Bool
  | .blockEntry | .blockEnd => true
  | _ => false

def endsBlockKey : TokenKind → Bool
  | .key | .value | .blockEnd => true
  | _ => false

def endsIndentless : TokenKind → Bool
  | .blockEntry | .key | .value | .blockEnd => true
  | _ => false

def endsFlowItem : TokenKind → Bool
  | .flowEntry | .flowSequenceEnd => true
  | _ => false

def endsFlowValue : TokenKind → Bool
  | .flowEntry | .flowMappingEnd => true
  | _ => false

mutual

/-- Read a node. Block collections are read only in blocks, and the entries of a sequence
without indentation of its own only in block mappings. -/
def node : Nat → Bool → Bool → ReadM Node
  | 0, _, _ => do fail {} (← peek) .missingNode
  | fuel + 1, isBlock, isIndentless => do
    let t ← peek
    match t.kind with
    | .reference name =>
      advance
      referenceNode t name
    | _ =>
      let p ← properties
      let t ← peek
      let number ← enter p
      match t.kind, isBlock with
      | .scalar text isPlain, _ =>
        advance
        leave p number (p.scalar text isPlain)
      | .flowSequence, _ =>
        advance
        let items ← flowItems fuel true t.mark
        leave p number (.sequence p.line (p.tagOr Tag.sequence) items)
      | .flowMapping, _ =>
        advance
        let entries ← flowEntries fuel true t.mark
        leave p number (.mapping p.line (p.tagOr Tag.mapping) entries)
      | .blockSequence, true =>
        advance
        let items ← blockItems fuel t.mark
        leave p number (.sequence p.line (p.tagOr Tag.sequence) items)
      | .blockMapping, true =>
        advance
        let entries ← blockEntries fuel t.mark
        leave p number (.mapping p.line (p.tagOr Tag.mapping) entries)
      | kind, _ =>
        if isIndentless && kind = .blockEntry then
          let items ← indentlessItems fuel
          leave p number (.sequence p.line (p.tagOr Tag.sequence) items)
        else if p.anchor.isSome || p.tag ≠ "" then leave p number (p.scalar "" true)
        else fail p.start t .missingNode

def blockItems : Nat → Mark → ReadM (List Node)
  | 0, start => do fail start (← peek) .missingEntry
  | fuel + 1, start => do
    let t ← peek
    match t.kind with
    | .blockEntry =>
      advance
      let item ← orEmpty t.mark endsEntry (node fuel true false)
      return item :: (← blockItems fuel start)
    | .blockEnd =>
      advance
      return []
    | _ => fail start t .missingEntry

def indentlessItems : Nat → ReadM (List Node)
  | 0 => return []
  | fuel + 1 => do
    let t ← peek
    match t.kind with
    | .blockEntry =>
      advance
      let item ← orEmpty t.mark endsIndentless (node fuel true false)
      return item :: (← indentlessItems fuel)
    | _ => return []

def blockEntries : Nat → Mark → ReadM (List (Node × Node))
  | 0, start => do fail start (← peek) .missingKey
  | fuel + 1, start => do
    let t ← peek
    match t.kind with
    | .key =>
      advance
      let key ← orEmpty t.mark endsBlockKey (node fuel true true)
      let v ← peek
      let value ← match v.kind with
        | .value => do
          advance
          orEmpty v.mark endsBlockKey (node fuel true true)
        | _ => pure (emptyNode v.mark)
      return (key, value) :: (← blockEntries fuel start)
    | .blockEnd =>
      advance
      return []
    | _ => fail start t .missingKey

/-- The items of a flow sequence. An item may be a single pair of a key and a value. -/
def flowItems : Nat → Bool → Mark → ReadM (List Node)
  | 0, _, start => do fail start (← peek) .missingSequenceComma
  | fuel + 1, isFirst, start => do
    let t ← peek
    if t.kind = .flowSequenceEnd then
      advance
      return []
    if !isFirst then
      if t.kind ≠ .flowEntry then fail start t .missingSequenceComma
      advance
    let t ← peek
    match t.kind with
    | .flowSequenceEnd =>
      advance
      return []
    | .key =>
      advance
      let key ← flowPairKey fuel
      let value ← flowPairValue fuel
      return .mapping (t.mark.line + 1) Tag.mapping [(key, value)] :: (← flowItems fuel false start)
    | _ =>
      let item ← node fuel false false
      return item :: (← flowItems fuel false start)

def flowPairKey : Nat → ReadM Node
  | 0 => do fail {} (← peek) .missingNode
  | fuel + 1 => do
    let t ← peek
    if t.kind = .value || endsFlowItem t.kind then
      advance
      return emptyNode t.mark
    else node fuel false false

def flowPairValue : Nat → ReadM Node
  | 0 => do fail {} (← peek) .missingNode
  | fuel + 1 => do
    let t ← peek
    if t.kind = .value then
      advance
      orEmpty t.mark endsFlowItem (node fuel false false)
    else return emptyNode t.mark

def flowEntries : Nat → Bool → Mark → ReadM (List (Node × Node))
  | 0, _, start => do fail start (← peek) .missingMappingComma
  | fuel + 1, isFirst, start => do
    let t ← peek
    if t.kind = .flowMappingEnd then
      advance
      return []
    if !isFirst then
      if t.kind ≠ .flowEntry then fail start t .missingMappingComma
      advance
    let t ← peek
    match t.kind with
    | .flowMappingEnd =>
      advance
      return []
    | .key =>
      advance
      let k ← peek
      let key ← orEmpty k.mark (fun kind => kind = .value || endsFlowValue kind)
        (node fuel false false)
      let v ← peek
      let value ← match v.kind with
        | .value => do
          advance
          let m := (← peek).mark
          orEmpty m endsFlowValue (node fuel false false)
        | _ => pure (emptyNode v.mark)
      return (key, value) :: (← flowEntries fuel false start)
    | _ =>
      let key ← node fuel false false
      let m := (← peek).mark
      return (key, emptyNode m) :: (← flowEntries fuel false start)

end

/-! ## Documents -/

def knownHandles : List (String × String) := [("!", "!"), ("!!", Tag.standard)]

def directives : Nat → Bool → ReadM Unit
  | 0, _ => return
  | fuel + 1, hasVersion => do
    let t ← peek
    match t.kind with
    | .version major minor =>
      if hasVersion then fail {} t .repeatedVersion
      if major ≠ 1 || minor ≠ 1 then fail {} t .wrongVersion
      advance
      directives fuel true
    | .tagHandle handle first =>
      if (← get).tagHandles.any (·.1 = handle) then fail {} t .repeatedTagHandle
      modify fun r => { r with tagHandles := r.tagHandles ++ [(handle, first)] }
      advance
      directives fuel hasVersion
    | _ => modify fun r => { r with tagHandles := r.tagHandles ++ knownHandles }

def isContent : TokenKind → Bool
  | .version .. | .tagHandle .. | .documentStart | .documentEnd | .streamEnd => false
  | _ => true

def root (fuel : Nat) : ReadM (Option Node) := do
  let _ ← peek
  advance
  let t ← peek
  match t.kind with
  | .streamEnd => return none
  | .version .. | .tagHandle .. | .documentStart =>
    directives fuel false
    let t ← peek
    if t.kind ≠ .documentStart then fail {} t .missingDocumentStart
    advance
    let t ← peek
    let n ← if isContent t.kind then node fuel true false else pure (emptyNode t.mark)
    let _ ← peek
    return some n
  | _ =>
    directives fuel false
    let n ← node fuel true false
    let _ ← peek
    return some n

end Read

/-! ## Texts -/

def isAllowed (c : Char) : Bool :=
  let n := c.toNat
  n = 0x09 || n = 0x0a || n = 0x0d || (0x20 ≤ n && n ≤ 0x7e) || n = 0x85 ||
    (0xa0 ≤ n && n ≤ 0xfffd) || 0x10000 ≤ n

def Document.ofText (source : String) : Except Mistake (Option Document) := do
  let cs := match source.toList with
    | '\ufeff' :: cs => cs
    | cs => cs
  if !cs.all isAllowed then throw ⟨.controlCharacter, 0⟩
  let bound := 8 * cs.length + 16
  let start : Reader := { queue := { cursor := { rest := cs }, bound } }
  let (root, r) ← (Read.root bound).run start
  return root.map fun n => { root := n, marked := r.marked, bound }

end Flowgraph.Yaml
