import Flowgraph.Yaml.Problem

/-! # Places in a YAML text

A cursor is what is left of a text and the place where it starts. Five
characters end a line, and a carriage return with a line feed after it counts
as one.
-/

namespace Flowgraph.Yaml

def isBreak (c : Char) : Bool :=
  c = '\n' || c = '\r' || c = '\u0085' || c = '\u2028' || c = '\u2029'

def isBlank (c : Char) : Bool := c = ' ' || c = '\t'

def isGap : Option Char → Bool
  | none => true
  | some c => isBlank c || isBreak c

def isBreakOrEnd : Option Char → Bool
  | none => true
  | some c => isBreak c

def isNameChar (c : Char) : Bool := c.isAlphanum || c = '_' || c = '-'

/-- A place in a text. Everything counts from zero. -/
structure Mark where
  index : Nat := 0
  line : Nat := 0
  column : Nat := 0
  deriving DecidableEq, Repr

structure Cursor where
  rest : List Char
  mark : Mark := {}
  deriving DecidableEq, Repr

namespace Cursor

def head? (c : Cursor) : Option Char := c.rest.head?

def second? (c : Cursor) : Option Char := c.rest.tail.head?

def line (c : Cursor) : Nat := c.mark.line

def column (c : Cursor) : Nat := c.mark.column

def skip (n : Nat) (c : Cursor) : Cursor :=
  { rest := c.rest.drop n
    mark := { c.mark with index := c.mark.index + n, column := c.mark.column + n } }

def skipBreak (c : Cursor) : Cursor :=
  let width := match c.rest with
    | '\r' :: '\n' :: _ => 2
    | _ => 1
  { rest := c.rest.drop width, mark := ⟨c.mark.index + width, c.mark.line + 1, 0⟩ }

/-- What the end of a line reads as: a line feed, except for the two separators. -/
def breakText (c : Cursor) : List Char :=
  match c.head? with
  | some '\u2028' => ['\u2028']
  | some '\u2029' => ['\u2029']
  | _ => ['\n']

def skipWhile (p : Char → Bool) (c : Cursor) : Cursor := c.skip (c.rest.takeWhile p).length

def skipBlanks (c : Cursor) : Cursor := c.skipWhile isBlank

def skipComment (c : Cursor) : Cursor :=
  if c.head? = some '#' then c.skipWhile (!isBreak ·) else c

def skipLineComment (c : Cursor) : Cursor :=
  if c.skipBlanks.head? = some '#' then c.skipBlanks.skipComment else c

def skipGap : Nat → Cursor → Cursor
  | 0, c => c
  | limit + 1, c =>
    match c.head? with
    | none => c
    | some ch =>
      if isBlank ch then skipGap limit (c.skip 1)
      else if isBreak ch then skipGap limit c.skipBreak
      else c

def skipComments : Nat → Cursor → Cursor
  | 0, c => c
  | limit + 1, c =>
    if c.head? = some '#' then
      let stop := c.skipComment
      let next := stop.skipGap (stop.rest.length + 1)
      if next.head? = some '#' then skipComments limit next else stop
    else c

def atDocumentMark (c : Cursor) : Bool :=
  c.column = 0 && match c.rest with
    | '-' :: '-' :: '-' :: rest | '.' :: '.' :: '.' :: rest => isGap rest.head?
    | _ => false

def mistake (c : Cursor) (start : Mark) (problem : Problem) : Mistake :=
  .inToken problem start.line c.line

end Cursor

end Flowgraph.Yaml
