import Flowgraph.Graph.Code

/-! # Fragments

A fragment is a piece of code with one entry and at most one exit. It is open
when code appended to it will run: it is empty or has an exit. A closed fragment
ends in a terminator, and nothing can be appended to it.
-/

namespace Flowgraph.Graph

structure Fragment where
  entry : Option Nat := none
  exit : Option Nat := none
  deriving DecidableEq, Repr, Inhabited

namespace Fragment

def empty : Fragment := {}

def single (i : Nat) : Fragment := ⟨some i, some i⟩

def isEmpty (f : Fragment) : Bool := f.entry.isNone

def isOpen (f : Fragment) : Bool := f.entry.isNone || f.exit.isSome

def isClosed (f : Fragment) : Bool := !f.isOpen

def closed (f : Fragment) : Fragment := ⟨f.entry, none⟩

def exitingAt (f : Fragment) (i : Nat) : Fragment := ⟨f.entry, some i⟩

def append (f g : Fragment) (c : Code) : Fragment × Code :=
  match f.entry, f.exit, g.entry with
  | none, _, _ => (g, c)
  | some _, some exit, some entry => (⟨f.entry, g.exit⟩, c.link exit entry)
  | _, _, _ => (f, c)

def add (f : Fragment) (i : Nat) (c : Code) : Fragment × Code := f.append (single i) c

end Fragment

end Flowgraph.Graph
