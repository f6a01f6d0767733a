import Flowgraph.Token.Lexer

/-! # Highlighting

Every token of a text gets a class by which an editor colours it. Classes and
extents are sent as numbers, each token relative to the one before it.
-/

namespace Flowgraph.Editor

def highlightTypes : List String :=
  ["namespace", "type", "function", "variable", "parameter", "property", "keyword", "number",
    "string", "comment", "operator"]

def highlightModifiers : List String := ["declaration", "readonly", "static"]

/-- A piece of one line. Lines and columns count from zero. -/
structure Highlight where
  line : Nat
  start : Nat
  length : Nat
  type : Nat
  modifiers : Nat
  deriving DecidableEq, Repr

def typeIndex (name : String) : Nat :=
  if highlightTypes.contains name then highlightTypes.findIdx (· = name) else 0

def declarationBit : Nat := 1

/-- The class of the name behind a keyword, and whether the keyword declares it. -/
def announced : String → Option (String × Bool)
  | "library" => some ("namespace", true)
  | "class" => some ("type", true)
  | "extends" | "on" => some ("type", false)
  | "fun" | "factory" => some ("function", true)
  | "get" | "set" => some ("property", true)
  | "var" | "final" | "const" | "let" => some ("variable", true)
  | _ => none

def classifyName (name : String) (previous : Option Token) : String × Nat :=
  let plain : String × Nat :=
    if previous.any fun p => p.kind = .operator && p.text = "." then ("property", 0)
    else if (name.toList.head?).any Char.isUpper then ("type", 0)
    else ("variable", 0)
  match previous with
  | some { kind := .keyword, text, .. } => match announced text with
    | some (type, true) => (type, declarationBit)
    | some (type, false) => (type, 0)
    | none => plain
  | _ => plain

def classify (t : Token) (previous : Option Token) : Option (String × Nat) :=
  match t.kind with
  | .comment => some ("comment", 0)
  | .keyword => some ("keyword", 0)
  | .integer | .float => some ("number", 0)
  | .stringStart | .stringEnd | .chars | .escaped => some ("string", 0)
  | .operator => some ("operator", 0)
  | .ident => some (classifyName t.text previous)
  | _ => none

/-- Editors count in units of sixteen bits. -/
def units (c : Char) : Nat := if 0x10000 ≤ c.toNat then 2 else 1

def width : List Char → Nat
  | [] => 0
  | c :: cs => units c + width cs

/-- The pieces of a text, one for each of its lines that is not empty. -/
def pieces (type modifiers line start : Nat) (cs : List Char) : List Highlight :=
  (cs.splitOnP (· = '\n')).zipIdx.filterMap fun (piece, i) =>
    let length := width piece
    if length = 0 then none
    else some { line := line + i, start := if i = 0 then start else 0, length, type, modifiers }

def highlightToken (t : Token) (previous : Option Token) : List Highlight :=
  match classify t previous with
  | none => []
  | some (type, modifiers) =>
    pieces (typeIndex type) modifiers (t.position.line - 1).toNat (t.position.column - 1).toNat
      t.text.toList

def highlightTokens (previous : Option Token) : List Token → List Highlight
  | [] => []
  | t :: rest =>
    highlightToken t previous ++ highlightTokens (if t.isSkipped then previous else some t) rest

/-- Everything up to the first place that has no token. -/
def highlight (file source : String) : List Highlight :=
  highlightTokens none (Lexer.scan file source).1

/-- Five numbers for each piece. A place is given by its distance from the one before. -/
def encodeFrom (line start : UInt32) : List Highlight → List UInt32
  | [] => []
  | h :: rest =>
    let down := UInt32.ofNat h.line - line
    let right := if down = 0 then UInt32.ofNat h.start - start else UInt32.ofNat h.start
    [down, right, .ofNat h.length, .ofNat h.type, .ofNat h.modifiers] ++
      encodeFrom (.ofNat h.line) (.ofNat h.start) rest

def encode (hs : List Highlight) : List UInt32 := encodeFrom 0 0 hs

end Flowgraph.Editor
