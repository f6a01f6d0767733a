import Flowgraph.Yaml.Token.Basic
import Flowgraph.Decimal.Numeral

/-! # Scalars

Plain, quoted and block scalars. Plain and quoted scalars may go over several
lines, which are folded: blanks around the end of a line are dropped, a single
end of a line reads as a space, and of several the first is dropped.
-/

namespace Flowgraph.Yaml

def foldBreaks (first later : List Char) : List Char :=
  if first = ['\n'] then (if later = [] then [' '] else later) else first ++ later

structure Folded where
  text : List Char := []
  blanks : List Char := []
  isBroken : Bool := false
  firstBreak : List Char := []
  laterBreaks : List Char := []

namespace Folded

def joined (f : Folded) : Folded :=
  { text := f.text ++ if f.isBroken then foldBreaks f.firstBreak f.laterBreaks else f.blanks }

def append (f : Folded) (cs : List Char) : Folded := { f with text := f.text ++ cs }

def addBlank (f : Folded) (c : Char) : Folded :=
  if f.isBroken then f else { f with blanks := f.blanks ++ [c] }

def addBreak (f : Folded) (cs : List Char) : Folded :=
  if f.isBroken then { f with laterBreaks := f.laterBreaks ++ cs }
  else { f with blanks := [], isBroken := true, firstBreak := cs }

end Folded

/-- Collect blanks and ends of lines. Where a line has to be indented, the indentation
cannot hold tabs. -/
def collectSpace (start : Mark) (indent : Nat) :
    Nat → Folded → Cursor → Except Mistake (Folded × Cursor)
  | 0, f, c => .ok (f, c)
  | limit + 1, f, c =>
    match c.head? with
    | none => .ok (f, c)
    | some ch =>
      if isBlank ch then
        if f.isBroken && c.column < indent && ch = '\t' then .error (c.mistake start .tabInPlain)
        else collectSpace start indent limit (f.addBlank ch) (c.skip 1)
      else if isBreak ch then
        collectSpace start indent limit (f.addBreak c.breakText) c.skipBreak
      else .ok (f, c)

/-! ## Plain scalars -/

def plainWord (inFlow : Bool) : List Char → List Char
  | [] => []
  | c :: cs =>
    if isGap (some c) || (c = ':' && isGap cs.head?) ||
        (inFlow && (c = ',' || c = '?' || c = '[' || c = ']' || c = '\x7b' || c = '\x7d')) then []
    else c :: plainWord inFlow cs

def plainLines (start : Mark) (indent : Nat) (inFlow : Bool) :
    Nat → Folded → Cursor → Except Mistake (Folded × Cursor)
  | 0, f, c => .ok (f, c)
  | limit + 1, f, c =>
    if c.atDocumentMark || c.head? = some '#' then .ok (f, c)
    else
      let word := plainWord inFlow c.rest
      let f := if word = [] then f else f.joined.append word
      let c := c.skip word.length
      if c.rest = [] || !isGap c.head? then .ok (f, c)
      else do
        let (f, c) ← collectSpace start indent (c.rest.length + 1) f c
        if !inFlow && c.column < indent then .ok (f, c)
        else plainLines start indent inFlow limit f c

def plainScalar (indent : Nat) (inFlow : Bool) (c : Cursor) :
    Except Mistake (String × Bool × Cursor) := do
  let (f, rest) ← plainLines c.mark indent inFlow (c.rest.length + 1) {} c
  return (String.ofList f.text, f.isBroken, rest)

/-! ## Quoted scalars -/

def simpleEscape : Char → Option Char
  | '0' => some '\x00'
  | 'a' => some '\x07'
  | 'b' => some '\x08'
  | 't' | '\t' => some '\t'
  | 'n' => some '\n'
  | 'v' => some '\x0b'
  | 'f' => some '\x0c'
  | 'r' => some '\r'
  | 'e' => some '\x1b'
  | ' ' => some ' '
  | '"' => some '"'
  | '\'' => some '\''
  | '\\' => some '\\'
  | 'N' => some '\u0085'
  | '_' => some '\u00a0'
  | 'L' => some '\u2028'
  | 'P' => some '\u2029'
  | _ => none

def escapeWidth : Char → Option Nat
  | 'x' => some 2
  | 'u' => some 4
  | 'U' => some 8
  | _ => none

def codePoint (width : Nat) (cs : List Char) : Except Problem Char :=
  let digits := cs.take width
  if digits.length < width || !digits.all (Decimal.digitValue · < 16) then .error .missingHexDigit
  else
    let n := digits.foldl (fun n d => n * 16 + Decimal.digitValue d) 0
    if n.isValidChar then .ok (Char.ofNat n) else .error .badCodePoint

def escape (cs : List Char) : Except Problem (Char × Nat) :=
  match cs with
  | [] => .error .unknownEscape
  | c :: cs => match simpleEscape c, escapeWidth c with
    | some ch, _ => .ok (ch, 2)
    | none, some width => (codePoint width cs).map fun ch => (ch, width + 2)
    | none, none => .error .unknownEscape

/-- Collect a word. An escaped end of a line ends it and reads as nothing. -/
def quotedWord (start : Mark) (quote : Char) :
    Nat → Folded → Cursor → Except Mistake (Folded × Cursor)
  | 0, f, c => .ok (f, c)
  | limit + 1, f, c =>
    let run := c.rest.takeWhile fun ch =>
      !isGap (some ch) && ch ≠ quote && !(quote = '"' && ch = '\\')
    let f := f.append run
    let c := c.skip run.length
    if quote = '\'' && c.head? = some quote && c.second? = some quote then
      quotedWord start quote limit (f.append [quote]) (c.skip 2)
    else if isGap c.head? || c.head? = some quote then .ok (f, c)
    else if c.second?.any isBreak then .ok ({ f with isBroken := true }, (c.skip 1).skipBreak)
    else match escape c.rest.tail with
      | .error p => .error (c.mistake start p)
      | .ok (ch, width) => quotedWord start quote limit (f.append [ch]) (c.skip width)

def quotedLines (start : Mark) (quote : Char) :
    Nat → Folded → Cursor → Except Mistake (Folded × Cursor)
  | 0, f, c => .ok (f, c)
  | limit + 1, f, c =>
    if c.atDocumentMark then .error (c.mistake start .documentInQuotes)
    else if c.rest = [] then .error (c.mistake start .endInQuotes)
    else do
      let (f, c) ← quotedWord start quote (c.rest.length + 1) f c
      if c.head? = some quote then return (f, c.skip 1)
      let (f, c) ← collectSpace start 0 (c.rest.length + 1) f c
      quotedLines start quote limit f.joined c

def quotedScalar (quote : Char) (c : Cursor) : Except Mistake (String × Cursor) := do
  let (f, rest) ← quotedLines c.mark quote (c.rest.length + 1) {} (c.skip 1)
  return (String.ofList f.text, rest)

/-! ## Block scalars -/

inductive Chomping
  | strip
  | clip
  | keep
  deriving DecidableEq, Repr

def chomping? : Option Char → Option Chomping
  | some '+' => some .keep
  | some '-' => some .strip
  | _ => none

def blockIndent (start : Mark) (c : Cursor) : Except Mistake (Nat × Cursor) :=
  match c.head? with
  | some d =>
    if d = '0' then .error (c.mistake start .zeroIndentation)
    else if d.isDigit then .ok (Decimal.digitValue d, c.skip 1)
    else .ok (0, c)
  | none => .ok (0, c)

def blockHeader (start : Mark) (c : Cursor) : Except Mistake (Chomping × Nat × Cursor) := do
  let (chomping, indent, c) ← match chomping? c.head? with
    | some chomping => do
      let (indent, c) ← blockIndent start (c.skip 1)
      pure (chomping, indent, c)
    | none => do
      let (indent, c) ← blockIndent start c
      match indent, chomping? c.head? with
      | 0, _ | _, none => pure (Chomping.clip, indent, c)
      | _, some chomping => pure (chomping, indent, c.skip 1)
  let c := c.skipBlanks.skipComment
  if !isBreakOrEnd c.head? then throw (c.mistake start .lineContinues)
  return (chomping, indent, if c.rest = [] then c else c.skipBreak)

/-- Pass indentation and empty lines. Gives the ends of the empty lines and the widest
indentation. Without a known indentation all spaces count. -/
def blockBreaks (start : Mark) (indent : Nat) :
    Nat → List Char → Nat → Cursor → Except Mistake (List Char × Nat × Cursor)
  | 0, breaks, widest, c => .ok (breaks, widest, c)
  | limit + 1, breaks, widest, c =>
    let spaces := (c.rest.takeWhile (· = ' ')).length
    let c := c.skip (if indent = 0 then spaces else min spaces (indent - c.column))
    let widest := max widest c.column
    if (indent = 0 || c.column < indent) && c.head? = some '\t' then
      .error (c.mistake start .tabInBlock)
    else if c.head?.any isBreak then
      blockBreaks start indent limit (breaks ++ c.breakText) widest c.skipBreak
    else .ok (breaks, widest, c)

structure Block where
  text : List Char := []
  isSpaced : Bool := false
  lineEnd : List Char := []
  emptyLines : List Char := []

/-- Add a line. A folded block joins lines by spaces unless one of them starts with a
blank. -/
def Block.addLine (isLiteral : Bool) (b : Block) (line : List Char) : Block :=
  let startsBlank := line.head?.any isBlank
  let glue :=
    if !isLiteral && !b.isSpaced && !startsBlank && b.lineEnd = ['\n'] then
      if b.emptyLines = [] then [' '] else []
    else b.lineEnd
  { text := b.text ++ glue ++ b.emptyLines ++ line, isSpaced := startsBlank }

def blockLines (start : Mark) (isLiteral : Bool) (indent : Nat) :
    Nat → Block → Cursor → Except Mistake (Block × Cursor)
  | 0, b, c => .ok (b, c)
  | limit + 1, b, c =>
    if c.column ≠ indent || c.rest = [] then .ok (b, c)
    else do
      let line := c.rest.takeWhile (!isBreak ·)
      let b := b.addLine isLiteral line
      let c := c.skip line.length
      let (lineEnd, c) := if c.rest = [] then ([], c) else (c.breakText, c.skipBreak)
      let (breaks, _, c) ← blockBreaks start indent (c.rest.length + 1) [] 0 c
      blockLines start isLiteral indent limit { b with lineEnd, emptyLines := breaks } c

def blockScalar (isLiteral : Bool) (outer : Int) (c : Cursor) :
    Except Mistake (String × Cursor) := do
  let start := c.mark
  let (chomping, increment, c) ← blockHeader start (c.skip 1)
  let written := if increment = 0 then 0 else (max outer 0).toNat + increment
  let (breaks, widest, c) ← blockBreaks start written (c.rest.length + 1) [] 0 c
  let indent := if written = 0 then max (max widest (outer + 1).toNat) 1 else written
  let (b, c) ← blockLines start isLiteral indent (c.rest.length + 1) { emptyLines := breaks } c
  let tail := match chomping with
    | .strip => []
    | .clip => b.lineEnd
    | .keep => b.lineEnd ++ b.emptyLines
  return (String.ofList (b.text ++ tail), c)

end Flowgraph.Yaml
