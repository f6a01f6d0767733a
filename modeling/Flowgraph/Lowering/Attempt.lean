import Flowgraph.Lowering.Jump

/-! # Handlers and finalizers

A try block gets an index of its own, and the handler for that index belongs to
the region around the try. Finalizers are lowered once for the normal exit, once
for the handler, and once for each jump out of the try block.
-/

namespace Flowgraph.Lowering

open Flowgraph.Graph (Fragment)
open Flowgraph.Tree (CatchClause)

def usesFrames : LowerM Bool := do return (← read).layout.usesContexts

def savedFrame : LowerM Scoping.Variable := do
  helperAt (·.catchContexts) (← get).depths.attempt

def enterTry (tryIndex : Nat) : LowerM Fragment := do
  let f ← if ← usesFrames then
      inOrder [loadFrameVariable, do storeLocal (← savedFrame), drop]
    else pure .empty
  let entry ← emitBlock .join tryIndex
  let f ← chain f [gotoJoin entry]
  return f.exitingAt entry

def inTry (tryIndex : Nat) (body : LowerM Fragment) : LowerM Fragment := do
  changeDepths fun d => { d with attempt := d.attempt + 1 }
  modify fun s => { s with tries := (tryIndex : Int) :: s.tries }
  let f ← withReader (fun env => { env with within := tryIndex :: env.within }) body
  modify fun s => { s with tries := s.tries.tail }
  changeDepths fun d => { d with attempt := d.attempt - 1 }
  return f

def caughtHere (tryIndex : Nat) : LowerM Caught := do
  let depth := (← get).depths.handler - 1
  let exception ← helperAt (·.exceptions) depth
  let stackTrace ← helperAt (·.stackTraces) depth
  return { exception, stackTrace, tryIndex }

def enterHandler (c : Caught) (guards : List String) : LowerM Fragment := do
  let entry ← emitBlock (.handler c.tryIndex guards (some c.exception) (some c.stackTrace))
    (← currentTry)
  modify fun s => { s with handlers := s.handlers ++ [entry] }
  startingAt entry <| if ← usesFrames then
      [do loadLocal (← savedFrame), storeFrameVariable]
    else []

def inHandler {α : Type} (m : LowerM α) : LowerM α := do
  changeDepths fun d => { d with handler := d.handler + 1 }
  let a ← m
  changeDepths fun d => { d with handler := d.handler - 1 }
  return a

def rethrowHere (c : Caught) : LowerM Fragment := do
  let f ← inOrder [loadLocal c.exception, pushArgument, loadLocal c.stackTrace, pushArgument,
    rethrowException c.tryIndex]
  let _ ← drop
  return f

def clauseCode (caught : Caught) (c : CatchClause) (body : LowerM Fragment) :
    LowerM Fragment := do
  let bind (v : Scoping.Variable) : Option Tree.Declaration → List (LowerM Fragment)
    | none => []
    | some d => [loadLocal v, do storeVariable (← lookupVariable c.place d.ref), drop]
  let handle : LowerM Fragment := do
    modify fun s => { s with caught := caught :: s.caught }
    let f ← body
    modify fun s => { s with caught := s.caught.tail }
    return f
  inOrder <| [enterScope c.id c.place] ++ bind caught.exception c.exception ++
    bind caught.stackTrace c.stackTrace ++ [handle, exitScope c.id]

/-- Try the clauses in order. Tells what is left open and whether any clause
reaches the code after the try. -/
def clauses (caught : Caught) (after : Nat) :
    List (CatchClause × LowerM Fragment) → Fragment → Bool → LowerM (Fragment × Bool)
  | [], current, reached => pure (current, reached)
  | (c, body) :: rest, current, reached => do
    let handler ← clauseCode caught c body
    let reached := reached || handler.isOpen
    let handler ← if handler.isOpen then chain handler [gotoJoin after] else pure handler
    if c.guard = "" then
      let current ← append current handler
      clauses caught after rest current reached
    else
      let current ← chain current [loadLocal caught.exception, pushArgument,
        typeConstant c.guard, pushArgument, boolConstant false, pushArgument,
        instanceCall Symbols.instanceOfFunction 3 []]
      let b ← branchIfTrue false
      let _ ← append current b.code
      let _ ← startingAt b.yes [pure handler]
      clauses caught after rest (.single b.no) reached

def afterTry (body : Fragment) (after : Nat) (reached : Bool) : Fragment :=
  if reached then body.exitingAt after else body.closed

def tryCatch (cs : List (CatchClause × LowerM Fragment)) (body : LowerM Fragment) :
    LowerM Fragment := do
  match (cs.map (·.1)).dropLast.find? (·.guard = "") with
  | some c => malformed c.place "catch-all clause must be the last clause"
  | none =>
    let tryIndex ← allocateTry
    let entry ← enterTry tryIndex
    let after ← makeJoin
    let f ← chain entry [inTry tryIndex body]
    if f.isOpen then
      let _ ← chain f [gotoJoin after]
    let reached ← inHandler do
      let caught ← caughtHere tryIndex
      let handler ← enterHandler caught ((cs.map (·.1.guard)).filter (· ≠ ""))
      let (rest, reached) ← clauses caught after cs handler f.isOpen
      if rest.isOpen then
        let _ ← chain rest [rethrowHere caught]
      return reached
    return afterTry f after reached

/-- Lower a try with a finalizer, which the body is given to run at jumps. The finalizer
stands outside the body, wherever it is run. -/
def tryFinally (body : Finalizer → LowerM Fragment) (finalizer : LowerM Fragment) :
    LowerM Fragment := do
  let within := (← read).within
  let tryIndex ← allocateTry
  let entry ← enterTry tryIndex
  let after ← makeJoin
  let s ← get
  let depths := { s.depths with handler := s.depths.handler + 1 }
  let z : Finalizer :=
    { id := s.nextFinalizer, frame := s.frame, tryIndex := ← currentTry, depths,
      code := withReader (fun env => { env with within }) finalizer }
  modify fun s => { s with nextFinalizer := s.nextFinalizer + 1 }
  let f ← chain entry [inTry tryIndex (body z)]
  let reached ← if f.isOpen then do
      let join ← makeJoin
      let _ ← chain f [gotoJoin join]
      let normal ← startingAt join [atDepths depths finalizer]
      if normal.isOpen then
        let _ ← chain normal [gotoJoin after]
      pure normal.isOpen
    else pure false
  inHandler do
    let caught ← caughtHere tryIndex
    let handler ← enterHandler caught []
    let handler ← chain handler [finalizer]
    if handler.isOpen then
      let _ ← chain handler [rethrowHere caught]
  return afterTry f after reached

end Flowgraph.Lowering
