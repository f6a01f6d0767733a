import Flowgraph.Symbols.Basic
import Flowgraph.Failure
import Flowgraph.Text.EditDistance

/-! # Finding symbols

A symbol that is asked for by name and does not exist is a failure that offers
similar names.
-/

namespace Flowgraph.Symbols

open Flowgraph.Tree (MemberRef)

def sortedNames (names : List String) : List String :=
  (names.mergeSort fun a b => decide (a ≤ b)).eraseDups

def unresolved (place : Position) (what name : String) (candidates : List String) : Failure :=
  { Failure.of .unresolved place ("cannot resolve " ++ what ++ " '" ++ name ++ "'") with
    similar := Text.similarNames (unmangle name) (sortedNames candidates) }

namespace Table

def unresolvedClass (t : Table) (place : Position) (name : String) : Failure :=
  unresolved place "class" name (t.classes.map (·.name))

def unresolvedMember (t : Table) (what : String) (ref : MemberRef) : Failure :=
  if ref.className ≠ "" && (t.class? ref.className).isNone then
    t.unresolvedClass .unknown ref.className
  else
    let names (x : Index) := (x.filter (·.1.className = ref.className)).map (·.1.name)
    unresolved .unknown what (ref.className ++ "::" ++ ref.name)
      (names t.fieldIndex ++ (names t.functionIndex).map unmangle)

def resolveClass (t : Table) (name : String) : Except Failure ClassInfo :=
  match t.class? name with
  | some c => .ok c
  | none => .error (t.unresolvedClass .unknown name)

def resolveField (t : Table) (ref : MemberRef) : Except Failure Nat :=
  match t.lookupField ref with
  | some id => .ok id
  | none => .error (t.unresolvedMember "field" ref)

def resolveFunction (t : Table) (ref : MemberRef) : Except Failure Nat :=
  match t.lookupFunction ref with
  | some id => .ok id
  | none => .error (t.unresolvedMember "function" ref)

def resolveConstructor (t : Table) (ref : MemberRef) : Except Failure Nat :=
  match t.constructorIndex.get? ref with
  | some id => .ok id
  | none => do
    let _ ← t.resolveClass ref.className
    let own := t.constructorIndex.filter (·.1.className = ref.className)
    .error (unresolved .unknown "constructor" (constructorName ref.className ref.name)
      (own.map fun entry => (t.function entry.2).name))

end Table

end Flowgraph.Symbols
