import Flowgraph.Graph.Code

/-! # Discovery

A depth-first search from the root finds the reachable blocks, their order, the
edges between them and the edges that close a loop. On the way it checks that
every block is a chain of instructions that ends in its only terminator.
-/

namespace Flowgraph.Graph

inductive Defect
  | sharedId (first second : String) (block : Int)
  | fallsInto (block next : Int)
  | continuesAfter (block : Int) (terminator : String)
  | unterminated (block : Int)
  deriving DecidableEq, Repr

def Defect.message : Defect → String
  | sharedId first second block =>
    "blocks " ++ first ++ " and " ++ second ++ " share id B" ++ toString block
  | fallsInto block next =>
    "block B" ++ toString block ++ " falls into block B" ++ toString next ++ " without a jump"
  | continuesAfter block terminator =>
    "block B" ++ toString block ++ " continues after " ++ terminator
  | unterminated block => "block B" ++ toString block ++ " does not end in a terminator"

structure Edge where
  source : Nat
  target : Nat
  deriving DecidableEq, Repr

namespace Code

/-- Check the instructions after `last`, and tell up to where they belong to the block. -/
def checkChain (c : Code) (block : Int) (last : Nat) : List Nat → Nat × Option Defect
  | [] => (last, if (c.op last).isTerminator then none else some (.unterminated block))
  | i :: rest => match c.op i with
    | .entry e => (last, some (.fallsInto block e.block))
    | op =>
      if op.isTerminator && !rest.isEmpty then (i, some (.continuesAfter block op.name))
      else c.checkChain block i rest

/-- The last instruction that belongs to a block, and what is wrong with the block. -/
def checkBlock (c : Code) (block : Nat) : Nat × Option Defect :=
  match c.op block with
  | .entry { kind := .graph .., .. } => (block, none)
  | _ => c.checkChain (c.block block) block (c.body block)

end Code

/-- The state of the search. Blocks and edges met last come first. -/
structure Search where
  started : List Nat := []
  finished : List Nat := []
  edges : List Edge := []
  /-- Edges to a block whose visit has not ended. -/
  backEdges : List Edge := []
  defect : Option Defect := none

namespace Search

def note (s : Search) (d : Option Defect) : Search := { s with defect := s.defect.or d }

def start (s : Search) (c : Code) (block : Nat) : Search :=
  let shared := (s.started.find? fun other => c.block other = c.block block).map fun other =>
    Defect.sharedId (c.op other).name (c.op block).name (c.block block)
  { (s.note shared).note (c.checkBlock block).2 with started := block :: s.started }

def finish (s : Search) (block : Nat) : Search := { s with finished := block :: s.finished }

def addEdge (s : Search) (e : Edge) : Search := { s with edges := e :: s.edges }

def addBackEdge (s : Search) (e : Edge) : Search := { s with backEdges := e :: s.backEdges }

end Search

/-- Visit a block and what it leads to. The depth is bounded by the number of blocks. -/
def visit (c : Code) : Nat → Search → Nat → Search
  | 0, s, _ => s
  | depth + 1, s, block =>
    let follow (s : Search) (next : Nat) : Search :=
      let s :=
        if next ∉ s.started then visit c depth s next
        else if next ∉ s.finished then s.addBackEdge ⟨block, next⟩
        else s
      s.addEdge ⟨block, next⟩
    ((c.successors block).foldl follow (s.start c block)).finish block

def search (c : Code) (root : Nat) : Search := visit c (c.size + 1) {} root

end Flowgraph.Graph
