import Flowgraph.Constant.Evaluate
import Flowgraph.Graph.Fragment
import Flowgraph.Graph.Effect
import Flowgraph.Graph.Sources
import Flowgraph.Settings

/-! # The state of lowering

Lowering one function emits instructions, links them into fragments and keeps
track of the values that the instructions so far leave for later ones: a stack
of definitions, named when they have to be read again.
-/

namespace Flowgraph.Lowering

open Constant (Stop Store EvalM)
open Flowgraph.Graph (Fragment Op Origin Use)
open Scoping (Analysis Layout Variable)

structure Env where
  settings : Settings
  function : Nat
  analysis : Analysis
  layout : Layout
  /-- The receiver of the member that the function belongs to. -/
  this : Option Variable
  /-- The try statements whose bodies hold what is being lowered, innermost first. -/
  within : List Nat := []

structure StackValue where
  definition : Nat
  temporary : Option Variable := none

/-- How many constructs of each kind are around the current place. They are
counted as the scope analysis counts them. -/
structure Depths where
  loop : Nat := 0
  attempt : Nat := 0
  handler : Nat := 0
  forIn : Nat := 0
  switch : Nat := 0
  deriving DecidableEq, Repr, Inhabited

/-- What a jump has to restore where it lands: the frame, the handler and the
finalizer around the target. -/
structure Landing where
  finalizer : Option Nat
  frame : Int
  tryIndex : Int

structure Breakable where
  label : Nat
  landing : Landing
  destination : Option Nat := none

structure SwitchTargets where
  cases : List Nat
  landing : Landing
  destinations : List (Nat × Nat) := []

structure Caught where
  exception : Variable
  stackTrace : Variable
  tryIndex : Int

structure State where
  store : Store
  code : Graph.Code
  nextBlock : Int
  nextTemp : Nat := 1
  nextTry : Nat := 0
  nextFinalizer : Nat := 0
  closures : List Nat := []
  handlers : List Nat := []
  stack : List StackValue := []
  pendingArguments : Nat := 0
  frame : Int := -1
  depths : Depths := {}
  place : Position
  /-- Innermost first, like the contexts below. -/
  breakables : List Breakable := []
  switches : List SwitchTargets := []
  tries : List Int := []
  caught : List Caught := []
  sources : Graph.Sources := {}

abbrev LowerM := ReaderT Env (ExceptT Stop (StateM State))

/-! ## Failing -/

def failAt {α : Type} (kind : FailureKind) (place : Position) (message : String) : LowerM α :=
  throw (.failed (.of kind place message))

def malformed {α : Type} (place : Position) (message : String) : LowerM α :=
  failAt .malformed place message

def inconsistent {α : Type} (message : String) : LowerM α := do malformed (← get).place message

/-- Something that always exists for what the analysis has seen. -/
def required {α : Type} : Option α → LowerM α
  | some a => pure a
  | none => throw .crashed

def changeDepths (f : Depths → Depths) : LowerM Unit :=
  modify fun s => { s with depths := f s.depths }

def at_ {α : Type} (place : Position) (m : LowerM α) : LowerM α := do
  let outer := (← get).place
  modify fun s => { s with place }
  let a ← m
  modify fun s => { s with place := outer }
  return a

/-! ## The store -/

def evaluating {α : Type} (m : EvalM α) : LowerM α := do
  let s ← get
  let (result, store) := m.run s.store
  set { s with store }
  match result with
  | .ok a => return a
  | .error stop => throw stop

def query {α : Type} (q : Symbols.Table → Except Failure α) : LowerM α :=
  evaluating (Constant.query q)

def table : LowerM Symbols.Table := do return (← get).store.table

def addClosure (make : Symbols.Table → Nat × Symbols.Table) : LowerM Nat := do
  let s ← get
  let (id, table) := make s.store.table
  let closures := if s.closures.contains id then s.closures else s.closures ++ [id]
  set { s with store := { s.store with table }, closures }
  return id

/-! ## Fragments -/

def append (f g : Fragment) : LowerM Fragment :=
  modifyGet fun s =>
    let (h, code) := f.append g s.code
    (h, { s with code })

def chain (f : Fragment) : List (LowerM Fragment) → LowerM Fragment
  | [] => pure f
  | piece :: pieces => do
    let g ← piece
    let h ← append f g
    chain h pieces

def inOrder (pieces : List (LowerM Fragment)) : LowerM Fragment := chain .empty pieces

/-! ## Sources -/

def note (f : Graph.Sources → Graph.Sources) : LowerM Unit :=
  modify fun s => { s with sources := f s.sources }

def noteEvent (place : Option Nat) (e : Graph.Event) : LowerM Unit :=
  note fun k => { k with events := (place, e) :: k.events }

/-- Note an event where a fragment starts. -/
def marked (e : Graph.Event) (m : LowerM Fragment) : LowerM Fragment := do
  let f ← m
  noteEvent f.entry e
  return f

/-! ## Emitting -/

def emit (op : Op) (origin : Option Origin := none) : LowerM Nat := do
  let env ← read
  modifyGet fun s =>
    let (i, code) := s.code.emit op origin env.within
    (i, { s with code })

def perform (op : Op) (origin : Option Origin := none) : LowerM Fragment := do
  return .single (← emit op origin)

def push (i : Nat) : LowerM Unit :=
  modify fun s =>
    { s with code := s.code.setTemp i s.nextTemp, nextTemp := s.nextTemp + 1,
             stack := ⟨i, none⟩ :: s.stack }

def define (op : Op) (origin : Option Origin := none) : LowerM Fragment := do
  let i ← emit op origin
  push i
  return .single i

def pop : LowerM StackValue := do
  match (← get).stack with
  | [] => inconsistent "expression stack underflow"
  | top :: stack =>
    modify fun s => { s with stack }
    return top

def popUse : LowerM Use := do return some (← pop).definition

/-- Discard the top of the stack. Values that are named or read from a variable
are dropped by an instruction. -/
def drop : LowerM Fragment := do
  let top ← pop
  if top.temporary.isNone && !((← get).code.op top.definition).readsLocal then return .empty
  perform (.dropTemps 1 [some top.definition])

/-- Name the top of the stack, so that it can be read again below other values. -/
def makeTemporary : LowerM Variable := do
  match (← get).stack with
  | [] => inconsistent "no value to name"
  | top :: stack =>
    let v := top.temporary.getD
      { name := ":t" ++ toString stack.length, slot := -1, names := some top.definition }
    modify fun s => { s with stack := { top with temporary := some v } :: stack }
    return v

def pushArgument : LowerM Fragment := do
  let value ← popUse
  modify fun s => { s with pendingArguments := s.pendingArguments + 1 }
  define (.pushArgument value)

def popArguments : Nat → List Use → LowerM (List Use)
  | 0, args => pure args
  | count + 1, args => do
    let top ← pop
    match (← get).code.op top.definition with
    | .pushArgument _ => popArguments count (some top.definition :: args)
    | _ => inconsistent ("call argument " ++ toString count ++ " was not pushed")

def takeArguments (count : Nat) : LowerM (List Use) := do
  let pending := (← get).pendingArguments
  if pending < count then
    inconsistent ("call takes " ++ toString count ++ " arguments but " ++ toString pending ++
      " are pending")
  let args ← popArguments count []
  modify fun s => { s with pendingArguments := s.pendingArguments - count }
  return args

/-! ## Blocks -/

def allocateTry : LowerM Nat :=
  modifyGet fun s => (s.nextTry, { s with nextTry := s.nextTry + 1 })

def currentTry : LowerM Int := do return (← get).tries.headD Graph.noTry

def emitBlock (kind : Graph.BlockKind) (tryIndex : Int) : LowerM Nat := do
  let block := (← get).nextBlock
  modify fun s => { s with nextBlock := block + 1 }
  emit (.entry { kind, block, tryIndex })

def makeTarget : LowerM Nat := do emitBlock .target (← currentTry)

def makeJoin : LowerM Nat := do emitBlock .join (← currentTry)

end Flowgraph.Lowering
