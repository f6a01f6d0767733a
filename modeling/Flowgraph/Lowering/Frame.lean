import Flowgraph.Lowering.Emit

/-! # Variables and frames

Captured variables live in frames, which are linked from inner to outer scopes.
The current frame is held in a variable of the function.
-/

namespace Flowgraph.Lowering

open Flowgraph.Graph (Fragment Slot)
open Scoping (Scope Variable)

def lookupVariable (place : Position) (ref : Tree.Ref) : LowerM Variable := do
  let a := (← read).analysis
  match a.variableOf ref.id with
  | some v => return a.var v
  | none => malformed place ("variable '" ++ ref.name ++ "' has no scope")

def helperVariable (v : Nat) : LowerM Variable := do return (← read).analysis.var v

def helperAt (vars : Scoping.Layout → List Nat) (depth : Nat) : LowerM Variable := do
  helperVariable (← required (vars (← read).layout)[depth]?)

def frameVariable : LowerM Variable := do helperVariable (← read).layout.currentContext

def loadFrameVariable : LowerM Fragment := do loadLocal (← frameVariable)

def storeFrameVariable : LowerM Fragment := do
  let v ← frameVariable
  inOrder [storeLocal v, drop]

/-- Push the frame at a level, following one link for each level in between. -/
def loadFrame (level : Int) : LowerM Fragment := do
  let current := (← get).frame
  if level < 0 || current < level then
    inconsistent ("no frame at level " ++ toString level ++ " (current level " ++
      toString current ++ ")")
  inOrder (loadFrameVariable :: List.replicate (current - level).toNat (loadField .frameParent))

def loadVariable (v : Variable) : LowerM Fragment :=
  if v.isCaptured then
    inOrder [loadFrame v.level, loadField (.frameVariable v.index) (some (.variable v))]
  else loadLocal v

def storeVariable (v : Variable) : LowerM Fragment := do
  if v.isCaptured then
    let value ← makeTemporary
    inOrder [loadFrame v.level, loadLocal value,
      storeField (.frameVariable v.index) (some (.variable v))]
  else storeLocal v

def setFrame (level : Int) : LowerM Unit := modify fun s => { s with frame := level }

def pushFrame (s : Scope) : LowerM Fragment := do
  let f ← define (.allocateContext s.captured.length) (some (.scope s.node))
  let frame ← makeTemporary
  let f ← if 0 ≤ (← get).frame then
      chain f [loadLocal frame, loadFrameVariable, storeField .frameParent]
    else pure f
  let f ← chain f [storeFrameVariable]
  setFrame s.level
  return f

def popFrame : LowerM Fragment := do
  let f ← inOrder [loadFrameVariable, loadField .frameParent, storeFrameVariable]
  setFrame ((← get).frame - 1)
  return f

def adjustFrame (level : Int) : LowerM Fragment := do
  if (← get).frame ≤ level then return .empty
  let f ← inOrder [if level < 0 then nullConstant else loadFrame level, storeFrameVariable]
  setFrame level
  return f

def framedScope (node : Nat) : LowerM (Option Scope) := do
  let a := (← read).analysis
  return ((a.scopeOf node).map a.scope).filter (·.hasFrame)

def enterScope (node : Nat) (place : Position) : LowerM Fragment := do
  match ← framedScope node with
  | none => return .empty
  | some scope =>
    let s ← get
    if s.frame ≠ scope.level - 1 then
      malformed place ("entering frame level " ++ toString scope.level ++ " from level " ++
        toString s.frame)
    if s.depths.loop ≠ scope.loopDepth then
      malformed place ("entering frame at loop depth " ++ toString s.depths.loop ++
        ", analyzed at " ++ toString scope.loopDepth)
    pushFrame scope

/-- Leave the scope of a node. The level changes even if the code is not reached. -/
def exitScope (node : Nat) : LowerM Fragment := do
  match ← framedScope node with
  | none => return .empty
  | some _ => popFrame

def copyParameters (params : List Variable) : LowerM Fragment :=
  inOrder <| (params.filter (·.isCaptured)).flatMap fun p =>
    [loadLocal { p with isCaptured := false, level := 0, index := 0 }, storeVariable p, drop]

def cloneFrame : LowerM Fragment :=
  inOrder [loadFrameVariable, do define (.cloneContext (← popUse)), storeFrameVariable]

end Flowgraph.Lowering
