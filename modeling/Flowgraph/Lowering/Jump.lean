import Flowgraph.Lowering.Expression

/-! # Jumps

A jump out of try blocks runs their finalizers on the way. The finalizers around
a statement are known from where it stands, and every jump lowers them anew.
-/

namespace Flowgraph.Lowering

open Flowgraph.Graph (Fragment)

structure Finalizer where
  id : Nat
  frame : Int
  tryIndex : Int
  depths : Depths
  code : LowerM Fragment

abbrev Finalizers := List Finalizer

def Finalizers.innermost (fs : Finalizers) : Option Nat := fs.head?.map (·.id)

def atDepths (depths : Depths) (m : LowerM Fragment) : LowerM Fragment := do
  let outer := (← get).depths
  changeDepths fun _ => depths
  let f ← m
  changeDepths fun _ => outer
  return f

/-- Leave try blocks until the handler is the given one, and tell whether any was left. -/
def leaveTries (tryIndex : Int) : List Int → LowerM Bool
  | [] => if tryIndex = Graph.noTry then return false else throw .crashed
  | t :: tries => do
    if t = tryIndex then return false
    modify fun s => { s with tries }
    let _ ← leaveTries tryIndex tries
    return true

/-- Run finalizers after `f` up to the target, unless one of them does not end. -/
def runFinalizers (target : Option Nat) (fs : Finalizers) (f : Fragment) : LowerM Fragment := do
  if fs.innermost = target then return f
  match fs with
  | [] => inconsistent "jump target is not enclosed by the current finalizers"
  | z :: rest => do
    let f ← chain f [adjustFrame z.frame]
    let f ← if ← leaveTries z.tryIndex (← get).tries then do
        let join ← makeJoin
        let f ← chain f [gotoJoin join]
        pure (f.exitingAt join)
      else pure f
    let f ← chain f [atDepths z.depths z.code]
    if f.isClosed then return f
    runFinalizers target rest f

/-- Run the finalizers that a jump leaves. The frame of the target is `frame`, or
-1 when the function returns. -/
def finalizersTo (target : Option Nat) (frame : Int) (fs : Finalizers) : LowerM Fragment := do
  let before ← get
  let f ← runFinalizers target fs .empty
  let f ← if f.isOpen && frame ≠ -1 then chain f [adjustFrame frame] else pure f
  modify fun s => { s with tries := before.tries, frame := before.frame }
  return f

def landing (fs : Finalizers) : LowerM Landing := do
  return ⟨fs.innermost, (← get).frame, ← currentTry⟩

def jumpTo (fs : Finalizers) (l : Landing) (jump : LowerM Fragment) : LowerM Fragment :=
  inOrder [finalizersTo l.finalizer l.frame fs, jump]

/-! ## Breaks -/

/-- Lower a labeled statement. Its end is a join only if there are breaks to it. -/
def labeled (label : Nat) (fs : Finalizers) (body : LowerM Fragment) : LowerM Fragment := do
  let l ← landing fs
  modify fun s => { s with breakables := ⟨label, l, none⟩ :: s.breakables }
  let f ← body
  let s ← get
  set { s with breakables := s.breakables.tail }
  match s.breakables.head?.bind (·.destination) with
  | none => return f
  | some join =>
    let f ← if f.isOpen then chain f [gotoJoin join] else pure f
    return f.exitingAt join

def replaceFirst {α : Type} (test : α → Bool) (f : α → α) : List α → List α
  | [] => []
  | x :: xs => if test x then f x :: xs else x :: replaceFirst test f xs

def breakTo (place : Position) (target : Tree.Ref) (fs : Finalizers) : LowerM Fragment := do
  match (← get).breakables.find? (·.label = target.id) with
  | none => malformed place "break to a label that does not enclose it"
  | some b =>
    let join ← match b.destination with
      | some join => pure join
      | none => do
        let join ← emitBlock .join b.landing.tryIndex
        let reach (b : Breakable) : Breakable := { b with destination := some join }
        modify fun s =>
          { s with breakables := replaceFirst (·.label = target.id) reach s.breakables }
        pure join
    jumpTo fs b.landing (gotoJoin join)

/-! ## Returns -/

def giveBackThrough (place : Position) (fs : Finalizers) (value : LowerM Fragment) :
    LowerM Fragment := do
  let f ← value
  if f.isClosed then
    let _ ← pop
    return f
  if fs.isEmpty then chain f [giveBack]
  else match (← read).layout.finallyReturn with
    | none => malformed place "return inside a finally region has no pending value slot"
    | some v =>
      let pending ← helperVariable v
      let f ← chain f [storeLocal pending, drop, finalizersTo none (-1) fs]
      if f.isOpen then chain f [loadLocal pending, giveBack] else return f

end Flowgraph.Lowering
