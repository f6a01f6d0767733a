import Flowgraph.Graph.Discovery
import Flowgraph.Graph.Effect
import Flowgraph.Graph.Sources

/-! # Graphs

The lowered form of one function: its code, and the reachable blocks in an order
in which every edge but the back edges goes forward.
-/

namespace Flowgraph

open Flowgraph.Graph (Code Edge Defect)

structure Graph where
  function : Option Nat := none
  code : Code
  root : Nat := 0
  blocks : List Nat := []
  edges : List Edge := []
  backEdges : List Edge := []
  closures : List Nat := []
  maxBlock : Int := 0
  tryCount : Nat := 0
  sources : Graph.Sources := {}

namespace Graph

/-- Fill in what a search of the code finds, and tell the first defect. -/
def discover (g : Graph) : Graph × Option Defect :=
  let s := search g.code g.root
  ({ g with blocks := s.finished
            edges := s.edges.reverse
            backEdges := s.backEdges.reverse
            maxBlock := s.finished.foldl (fun m b => max m (g.code.block b)) g.maxBlock },
   s.defect)

def predecessors (g : Graph) (block : Nat) : List Nat :=
  (g.edges.filter (·.target = block)).map (·.source)

def block? (g : Graph) (id : Int) : Option Nat := g.blocks.find? fun b => g.code.block b = id

def instructions (g : Graph) : List (Nat × Nat) :=
  g.blocks.flatMap fun b => (b :: g.code.body b).map fun i => (b, i)

def count (g : Graph) (name : String) : Nat :=
  (g.instructions.filter fun (_, i) => (g.code.op i).name = name).length

/-! ## Statistics -/

structure Stats where
  blocks : Nat
  joins : Nat
  targets : Nat
  handlers : Nat
  loops : Nat
  instructions : Nat
  throwing : Nat
  guarded : Nat
  counts : List (String × Nat)

def stats (g : Graph) : Stats :=
  let entries := g.blocks.filterMap g.code.asEntry
  let count (p : BlockKind → Bool) := (entries.filter fun e => p e.kind).length
  let bodies := g.blocks.flatMap fun b => (g.code.body b).map fun i => (b, g.code.op i)
  let throwing := bodies.filter fun (_, op) => op.mayThrow
  let isGuarded (b : Nat) := (g.code.asEntry b).any (·.tryIndex ≠ noTry)
  let names := bodies.map fun (_, op) => op.name
  { blocks := g.blocks.length
    joins := count fun | .join => true | _ => false
    targets := count fun | .target => true | _ => false
    handlers := count fun | .handler .. => true | _ => false
    loops := g.backEdges.length
    instructions := bodies.length
    throwing := throwing.length
    guarded := (throwing.filter fun (b, _) => isGuarded b).length
    counts := ((names.mergeSort fun a b => decide (a ≤ b)).eraseDups).map fun name =>
      (name, names.count name) }

end Graph

end Flowgraph
