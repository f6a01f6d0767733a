import Flowgraph.Graph.Instruction

/-! # Code

The instructions of a function, each linked to the next and the previous one of
its block. The number of an instruction is its place in the code.
-/

namespace Flowgraph.Graph

structure Instruction where
  op : Op
  /-- The number of the temporary that names the value, from one on. -/
  temp : Nat := 0
  next : Option Nat := none
  previous : Option Nat := none
  /-- Set for the instructions that make frames, access captured variables and continue to
  cases. -/
  origin : Option Origin := none
  /-- The try statements whose bodies hold the source of the instruction, innermost first,
  each given by its try index. -/
  within : List Nat := []

instance : Inhabited Instruction := ⟨{ op := .entry { kind := .join, block := 0 } }⟩

abbrev Code := Array Instruction

namespace Code

def get (c : Code) (i : Nat) : Instruction := c.getD i default

def op (c : Code) (i : Nat) : Op := (c.get i).op

def asEntry (c : Code) (i : Nat) : Option Entry := (c.op i).asEntry

def block (c : Code) (i : Nat) : Int := ((c.asEntry i).map (·.block)).getD 0

def emit (c : Code) (op : Op) (origin : Option Origin := none) (within : List Nat := []) :
    Nat × Code :=
  (c.size, c.push { op, origin, within })

def setTemp (c : Code) (i temp : Nat) : Code := c.modify i fun x => { x with temp }

def link (c : Code) (i j : Nat) : Code :=
  (c.modify i fun x => { x with next := some j }).modify j fun x => { x with previous := some i }

/-- At most `limit` instructions from `i` on, following `step`. -/
def follow (step : Instruction → Option Nat) (c : Code) : Nat → Option Nat → List Nat
  | 0, _ => []
  | _ + 1, none => []
  | limit + 1, some i => i :: c.follow step limit (step (c.get i))

def forward (c : Code) (limit : Nat) (start : Option Nat) : List Nat :=
  c.follow Instruction.next limit start

def backward (c : Code) (limit : Nat) (start : Option Nat) : List Nat :=
  c.follow Instruction.previous limit start

def body (c : Code) (block : Nat) : List Nat := c.forward c.size (c.get block).next

def lastOf (c : Code) (block : Nat) : Nat := (c.body block).getLastD block

def successors (c : Code) (block : Nat) : List Nat :=
  match c.op block with
  | .entry { kind := .graph normal handlers _, .. } => normal.toList ++ handlers
  | _ => match c.op (c.lastOf block) with
    | .goto target => [target]
    | .branch _ _ _ yes no => [yes, no]
    | _ => []

end Code

end Flowgraph.Graph
