import Flowgraph.Lowering.Expression

/-! # Branches and loops

Loops are put together from a condition, a body and updates that are lowered
separately. A body that never reaches its end needs no jump back.
-/

namespace Flowgraph.Lowering

open Flowgraph.Graph (Fragment)
open Flowgraph.Tree (Expr)

def testing (condition : Expr) : LowerM Branching := do
  let b ← branchOnCondition (lowerCondition condition)
  noteEvent (some b.yes) (.test condition true)
  noteEvent (some b.no) (.test condition false)
  return b

def branch (condition : Expr) (yes no : LowerM Fragment) : LowerM Fragment := do
  let b ← testing condition
  let yes ← startingAt b.yes [yes]
  let no ← startingAt b.no [no]
  match yes.isOpen, no.isOpen with
  | true, true =>
    let join ← makeJoin
    let _ ← chain yes [gotoJoin join]
    let _ ← chain no [gotoJoin join]
    return b.code.exitingAt join
  | true, false => return ⟨b.code.entry, yes.exit⟩
  | false, true => return ⟨b.code.entry, no.exit⟩
  | false, false => return b.code.closed

def isAlways : Expr → Bool
  | .absent => true
  | .bool _ b => b
  | _ => false

def inLoop (m : LowerM Fragment) : LowerM Fragment := do
  changeDepths fun d => { d with loop := d.loop + 1 }
  let f ← m
  changeDepths fun d => { d with loop := d.loop - 1 }
  return f

/-- Jump back from the end of the body to a header, which starts every iteration
with a check, and give the jump into the loop. -/
def loopHeader (body header : Fragment) : LowerM Fragment := do
  let join ← makeJoin
  let _ ← chain body [gotoJoin join]
  let _ ← startingAt join [checkStackOverflow, pure header]
  gotoJoin join

def loopForever (body : Fragment) : LowerM Fragment := do
  let join ← makeJoin
  let _ ← startingAt join [checkStackOverflow, pure body, gotoJoin join]
  gotoJoin join

def whileLoop (condition : Expr) (body : LowerM Fragment) : LowerM Fragment := inLoop do
  if isAlways condition then
    let body ← body
    if body.isClosed then return body else loopForever body
  else
    let b ← testing condition
    let body ← startingAt b.yes [body]
    let entry ← if body.isOpen then loopHeader body b.code else pure b.code
    return entry.exitingAt b.no

def doLoop (body : LowerM Fragment) (condition : Expr) : LowerM Fragment := inLoop do
  let body ← body
  if body.isClosed then return body
  if isAlways condition then loopForever body
  else
    let b ← testing condition
    let iteration ← append body b.code
    let entry ← loopHeader (.single b.yes) iteration
    return entry.exitingAt b.no

/-- The end of an iteration of a for loop. Captured variables get a new frame. -/
def forUpdates (fresh : Bool) (updates : List Expr) (body : Fragment) : LowerM Fragment :=
  chain body ((if fresh then [cloneFrame] else []) ++
    updates.flatMap fun e => [marked (.update e) (lowerExpr e), drop])

def forIterations (before : Fragment) (fresh : Bool) (condition : Option Expr)
    (updates : List Expr) (body : LowerM Fragment) : LowerM Fragment := do
  match condition.filter (!isAlways ·) with
  | none =>
    let body ← body
    if body.isOpen then
      let body ← forUpdates fresh updates body
      chain before [loopForever body]
    else append before body
  | some condition =>
    let b ← testing condition
    let body ← startingAt b.yes [body]
    let f ← if body.isOpen then do
        let body ← forUpdates fresh updates body
        chain before [loopHeader body b.code]
      else append before b.code
    return f.exitingAt b.no

def forLoop (node : Nat) (place : Position) (vars : List Tree.Declaration)
    (condition : Option Expr) (updates : List Expr) (body : LowerM Fragment) :
    LowerM Fragment := do
  let fresh := (← framedScope node).isSome
  let f ← inOrder (enterScope node place :: vars.map lowerDeclaration)
  let f ← inLoop (forIterations f fresh condition updates body)
  chain f [exitScope node]

def forIn (node : Nat) (place : Position) (d : Tree.Declaration) (iterable : Expr)
    (body : LowerM Fragment) : LowerM Fragment := do
  let iterator ← helperAt (·.iterators) (← get).depths.forIn
  let ask (name : String) : List (LowerM Fragment) :=
    [loadLocal iterator, pushArgument, instanceCall name 1 []]
  let f ← inOrder [lowerExpr iterable, pushArgument,
    instanceCall (Symbols.getterName "iterator") 1 [], storeLocal iterator, drop]
  changeDepths fun k => { k with forIn := k.forIn + 1 }
  let f ← inLoop do
    let condition ← inOrder (ask "moveNext")
    let b ← branchIfTrue false
    let condition ← append condition b.code
    let body ← startingAt b.yes <| [enterScope node place] ++
      ask (Symbols.getterName "current") ++
      [do storeVariable (← lookupVariable place d.ref), drop, body, exitScope node]
    let f ← if body.isOpen then do
        let join ← makeJoin
        let f ← chain f [gotoJoin join]
        let _ ← chain body [gotoJoin join]
        let _ ← startingAt join [checkStackOverflow, pure condition]
        pure f
      else append f condition
    return f.exitingAt b.no
  changeDepths fun k => { k with forIn := k.forIn - 1 }
  return f

def assertion (condition : Expr) (message : Option Expr) : LowerM Fragment := do
  if !(← read).settings.enableAsserts then return .empty
  let b ← branchOnCondition (lowerCondition condition)
  let failure ← startingAt b.no [lowerOption message, pushArgument]
  let create ← query
    (·.resolveConstructor ⟨Symbols.assertionErrorClass, Symbols.assertionFactory⟩)
  let _ ← chain failure [staticCall create 1 [], throwException]
  let _ ← drop
  return b.code.exitingAt b.yes

end Flowgraph.Lowering
