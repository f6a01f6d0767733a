/-! # Positions

A place in a source text. Lines and columns count from one, and a line below
one means that no place is known. The offset counts bytes.
-/

namespace Flowgraph

structure Position where
  file : String := ""
  offset : Nat := 0
  line : Int := 0
  column : Int := 0
  deriving DecidableEq, Repr, Inhabited

namespace Position

def unknown : Position := {}

def isKnown (p : Position) : Bool := decide (0 < p.line)

def render (p : Position) : String :=
  let place := toString p.line ++ ":" ++ toString p.column
  if p.file = "" then place else p.file ++ ":" ++ place

def step (p : Position) (c : Char) : Position :=
  { p with
    offset := p.offset + c.utf8Size
    line := if c = '\n' then p.line + 1 else p.line
    column := if c = '\n' then 1 else p.column + 1 }

def advance (p : Position) (cs : List Char) : Position := cs.foldl step p

end Position

end Flowgraph
