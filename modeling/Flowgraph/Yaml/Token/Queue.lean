import Flowgraph.Yaml.Token.Scalar
import Flowgraph.Yaml.Token.Tag

/-! # The queue of tokens

Tokens are read ahead of their use. What is written first in an entry may turn
out to be a key only when the colon after it is met; the key token, and with it
perhaps the start of a mapping, is then put in front of tokens that are still in
the queue. Indentation in block collections is turned into tokens that start and
end them.
-/

namespace Flowgraph.Yaml

/-- Where a key without a mark of its own may have started. -/
structure KeyStart where
  isPossible : Bool := false
  /-- In a block mapping an entry at the mapping's indentation has to be a key. -/
  isRequired : Bool := false
  token : Nat := 0
  mark : Mark := {}
  deriving DecidableEq, Repr

structure Queue where
  cursor : Cursor
  bound : Nat
  hasStarted : Bool := false
  tokens : List Token := []
  used : Nat := 0
  indent : Int := -1
  outerIndents : List Int := []
  flowLevel : Nat := 0
  keys : List KeyStart := [{}]
  /-- The places for keys by the numbers of their first tokens, counted from the outermost. -/
  keyPlaces : List (Nat × Nat) := []
  allowsKey : Bool := true
  deriving DecidableEq, Repr

abbrev ScanM := StateT Queue (Except Mistake)

namespace Queue

def maxDepth : Nat := 10000

def maxKey : Nat := 1024

def key (q : Queue) : KeyStart := q.keys.headD {}

def setKey (q : Queue) (k : KeyStart) : Queue := { q with keys := k :: q.keys.tail }

def forgetPlace (q : Queue) (token : Nat) : Queue :=
  { q with keyPlaces := q.keyPlaces.filter (·.1 ≠ token) }

def keyAtHead (q : Queue) : Option Nat := (q.keyPlaces.find? (·.1 = q.used)).map (·.2)

def insert (q : Queue) (number : Nat) (t : Token) : Queue :=
  let n := number - q.used
  { q with tokens := q.tokens.take n ++ t :: q.tokens.drop n }

def nextNumber (q : Queue) : Nat := q.used + q.tokens.length

def append (q : Queue) (t : Token) : Queue := { q with tokens := q.tokens ++ [t] }

end Queue

namespace Scan

open Queue

def cursor : ScanM Cursor := return (← get).cursor

def mark : ScanM Mark := return (← get).cursor.mark

def move (c : Cursor) : ScanM Unit := modify fun q => { q with cursor := c }

def fail {α : Type} (start : Mark) (p : Problem) : ScanM α := do
  throw ((← get).cursor.mistake start p)

def push (kind : TokenKind) (m : Mark) : ScanM Unit := modify fun q => q.append ⟨kind, m⟩

def allowKey (isAllowed : Bool) : ScanM Unit := modify fun q => { q with allowsKey := isAllowed }

/-- Pass a comment on the line of the last token. One after a dash belongs to what follows. -/
def lineComment : ScanM Unit :=
  modify fun q => match q.tokens.getLast? with
    | some ⟨.blockEntry, _⟩ => q
    | _ => { q with cursor := q.cursor.skipLineComment }

def pushHere (kind : TokenKind) : ScanM Unit := do
  let c ← cursor
  push kind c.mark
  move (c.skip 1)
  lineComment

/-! ## Keys -/

def dropKey : ScanM Unit := do
  let k := (← get).key
  if k.isPossible then
    if k.isRequired then fail k.mark .missingColon
    modify fun q => (q.setKey { k with isPossible := false }).forgetPlace k.token

def saveKey : ScanM Unit := do
  let q ← get
  if q.allowsKey then
    let k : KeyStart :=
      { isPossible := true
        isRequired := q.flowLevel = 0 && q.indent = q.cursor.column
        token := q.nextNumber
        mark := q.cursor.mark }
    dropKey
    modify fun q =>
      { q.setKey k with keyPlaces := (k.token, q.keys.length - 1) :: q.keyPlaces }

/-- Whether the key that may have started at a place can still end here: a key stands on
one line and is not too long. -/
def isOpenKey (place : Nat) : ScanM Bool := do
  let q ← get
  let n := q.keys.length - 1 - place
  let k := (q.keys[n]?).getD {}
  let isOld := k.mark.line < q.cursor.line || k.mark.index + maxKey < q.cursor.mark.index
  if !k.isPossible then return false
  if !isOld then return true
  if k.isRequired then fail k.mark .missingColon
  set { q with keys := q.keys.set n { k with isPossible := false } }
  return false

/-! ## Collections -/

/-- Open a block collection at a column that lies further in. Its token goes before the
token of the given number, or to the end. -/
def rollIndent (column : Nat) (number : Option Nat) (kind : TokenKind) (m : Mark) : ScanM Unit := do
  let q ← get
  if q.flowLevel = 0 && q.indent < column then
    if maxDepth ≤ q.outerIndents.length then fail q.key.mark .tooDeep
    let q := { q with outerIndents := q.indent :: q.outerIndents, indent := column }
    set (match number with
      | some n => q.insert n ⟨kind, m⟩
      | none => q.append ⟨kind, m⟩)

def unrollTo (column : Int) (m : Mark) : List Int → Queue → Queue
  | [], q => q
  | outer :: rest, q =>
    if column < q.indent then
      unrollTo column m rest
        { q.append ⟨.blockEnd, m⟩ with indent := outer, outerIndents := rest }
    else q

def unrollIndent (column : Int) (m : Mark) : ScanM Unit :=
  modify fun q => if q.flowLevel = 0 then unrollTo column m q.outerIndents q else q

def openFlow (kind : TokenKind) : ScanM Unit := do
  saveKey
  let m ← mark
  modify fun q =>
    { q with keys := { token := q.nextNumber, mark := m } :: q.keys, flowLevel := q.flowLevel + 1 }
  if maxDepth < (← get).flowLevel then fail m .tooDeep
  allowKey true
  pushHere kind

def closeFlow (kind : TokenKind) : ScanM Unit := do
  dropKey
  modify fun q =>
    if q.flowLevel = 0 then q
    else { q.forgetPlace q.key.token with keys := q.keys.tail, flowLevel := q.flowLevel - 1 }
  allowKey false
  pushHere kind

/-! ## Single tokens -/

def streamEnd : ScanM Unit := do
  modify fun q =>
    if q.cursor.column = 0 then q
    else { q with cursor.mark.line := q.cursor.line + 1, cursor.mark.column := 0 }
  let m ← mark
  unrollIndent (-1) m
  dropKey
  allowKey false
  push .streamEnd m

def leaveBlocks : ScanM Unit := do
  unrollIndent (-1) (← mark)
  dropKey
  allowKey false

def blockEntry : ScanM Unit := do
  let q ← get
  if q.flowLevel = 0 then
    if !q.allowsKey then fail q.cursor.mark .misplacedEntry
    rollIndent q.cursor.column none .blockSequence q.cursor.mark
  dropKey
  allowKey true
  pushHere .blockEntry

def explicitKey : ScanM Unit := do
  let q ← get
  if q.flowLevel = 0 then
    if !q.allowsKey then fail q.cursor.mark .misplacedKey
    rollIndent q.cursor.column none .blockMapping q.cursor.mark
  dropKey
  allowKey (q.flowLevel = 0)
  pushHere .key

/-- A colon makes a key of what may have been one. -/
def value : ScanM Unit := do
  let q ← get
  if ← isOpenKey (q.keys.length - 1) then
    let k := q.key
    modify fun q => q.insert k.token ⟨.key, k.mark⟩
    rollIndent k.mark.column (some k.token) .blockMapping k.mark
    modify fun q => (q.setKey { k with isPossible := false }).forgetPlace k.token
    allowKey false
  else
    if q.flowLevel = 0 then
      if !q.allowsKey then fail q.cursor.mark .misplacedValue
      rollIndent q.cursor.column none .blockMapping q.cursor.mark
    allowKey (q.flowLevel = 0)
  pushHere .value

def keyPart (read : Cursor → Except Mistake (TokenKind × Cursor)) : ScanM Unit := do
  saveKey
  allowKey false
  let c ← cursor
  let (kind, rest) ← read c
  push kind c.mark
  move rest
  lineComment

def plain : ScanM Unit := do
  saveKey
  allowKey false
  let q ← get
  let (text, isBroken, rest) ← plainScalar (q.indent + 1).toNat (q.flowLevel ≠ 0) q.cursor
  push (.scalar text true) q.cursor.mark
  move rest
  if isBroken then allowKey true else lineComment

def block (isLiteral : Bool) : ScanM Unit := do
  dropKey
  allowKey true
  let q ← get
  let (text, rest) ← blockScalar isLiteral q.indent q.cursor
  push (.scalar text false) q.cursor.mark
  move rest

/-! ## The next token -/

def skipSpace : Nat → Queue → Queue
  | 0, q => q
  | limit + 1, q =>
    let tabs := q.flowLevel ≠ 0 || !q.allowsKey
    let c := q.cursor.skipWhile fun ch => ch = ' ' || (tabs && ch = '\t')
    let c := c.skipComments (c.rest.length + 1)
    if c.head?.any isBreak then
      skipSpace limit
        { q with cursor := c.skipBreak, allowsKey := q.allowsKey || q.flowLevel = 0 }
    else { q with cursor := c }

def startsPlain (inFlow : Bool) (c : Cursor) : Bool :=
  match c.head? with
  | none => false
  | some ch =>
    !(isGap (some ch) || "-?:,[]\x7b\x7d#&*!|>'\"%@\x60".toList.contains ch) ||
      (ch = '-' && !c.second?.any isBlank) ||
      (!inFlow && (ch = '?' || ch = ':') && !isGap c.second?)

def contentToken : ScanM Unit := do
  let q ← get
  let c := q.cursor
  let inFlow : Bool := q.flowLevel ≠ 0
  let isMark (ch : Char) : Bool := c.head? = some ch
  let standsAlone : Bool := isGap c.second?
  if isMark '[' then openFlow .flowSequence
  else if isMark '\x7b' then openFlow .flowMapping
  else if isMark ']' then closeFlow .flowSequenceEnd
  else if isMark '\x7d' then closeFlow .flowMappingEnd
  else if isMark ',' then
    dropKey
    allowKey true
    pushHere .flowEntry
  else if isMark '-' && standsAlone then blockEntry
  else if isMark '?' && (inFlow || standsAlone) then explicitKey
  else if isMark ':' && (inFlow || standsAlone) then value
  else if isMark '*' then keyPart fun c => (anchorName c).map fun (name, rest) => (.reference name, rest)
  else if isMark '&' then keyPart fun c => (anchorName c).map fun (name, rest) => (.anchor name, rest)
  else if isMark '!' then keyPart tag
  else if isMark '|' && !inFlow then block true
  else if isMark '>' && !inFlow then block false
  else if isMark '\'' || isMark '"' then
    keyPart fun c =>
      (quotedScalar (c.head?.getD '"') c).map fun (text, rest) => (.scalar text false, rest)
  else if startsPlain inFlow c then plain
  else fail c.mark .badStart

def tokenHere : ScanM Unit := do
  let c ← cursor
  if c.rest = [] then streamEnd
  else if c.column = 0 && c.head? = some '%' then
    leaveBlocks
    let (kind, rest) ← directive c
    push kind c.mark
    move rest
  else if c.atDocumentMark then
    leaveBlocks
    push (if c.head? = some '-' then .documentStart else .documentEnd) c.mark
    move (c.skip 3)
  else
    contentToken

def nextToken : ScanM Unit := do
  let q ← get
  if !q.hasStarted then
    set { q with hasStarted := true }
    push .streamStart q.cursor.mark
  else
    let before := q.cursor.mark
    modify fun q => skipSpace q.bound q
    unrollIndent (← get).cursor.column before
    tokenHere

/-- Read ahead until two tokens follow the next one, and until that one is known not to
start a key. -/
def fill : Nat → ScanM Unit
  | 0 => return
  | limit + 1 => do
    let q ← get
    let mustGoOn ← if 2 < q.tokens.length then
        match q.keyAtHead with
        | none => pure false
        | some place => isOpenKey place
      else pure true
    if mustGoOn then
      nextToken
      fill limit

def peek : ScanM Token := do
  fill (← get).bound
  return (← get).tokens.headD ⟨.streamEnd, {}⟩

def advance : ScanM Unit :=
  modify fun q => { q with tokens := q.tokens.tail, used := q.used + 1 }

end Scan

end Flowgraph.Yaml
