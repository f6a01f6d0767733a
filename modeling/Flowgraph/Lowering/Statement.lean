import Flowgraph.Lowering.Loop
import Flowgraph.Lowering.Switch
import Flowgraph.Lowering.Attempt

/-! # Lowering statements

A statement is lowered with the finalizers around it. Statements behind the end
of control in their block are left out.
-/

namespace Flowgraph.Lowering

open Flowgraph.Graph (Fragment)
open Flowgraph.Tree (Stmt)

def statement (s : Stmt) (m : LowerM Fragment) : LowerM Fragment := balanced s.place s.kind m

mutual

def lowerStmt (fs : Finalizers) : Stmt → LowerM Fragment
  | .absent => pure .empty
  | s@(.empty _) => statement s (pure .empty)
  | s@(.invalid place message) =>
    statement s (malformed place ("invalid statement: " ++ message))
  | s@(.block id place statements) => statement s do
    let f ← enterScope id place
    let f ← lowerBlock fs f statements
    chain f [exitScope id]
  | s@(.expr _ value) => statement s (inOrder [marked (.evaluate value) (lowerExpr value), drop])
  | .declare d => lowerDeclaration d
  | s@(.function place d body) => statement s <|
    inOrder [nestedFunction body d.name, do storeVariable (← lookupVariable place d.ref), drop]
  | s@(.branch _ condition yes no) =>
    statement s (branch condition (lowerStmt fs yes) (lowerOptionStmt fs no))
  | s@(.whileDo _ condition body) => statement s (whileLoop condition (lowerStmt fs body))
  | s@(.doWhile _ body condition) => statement s (doLoop (lowerStmt fs body) condition)
  | s@(.forLoop id place vars condition updates body) =>
    statement s (forLoop id place vars condition updates (lowerStmt fs body))
  | s@(.forIn id place d iterable body) =>
    statement s (forIn id place d iterable (lowerStmt fs body))
  | s@(.labeled id _ _ body) => statement s (labeled id fs (lowerStmt fs body))
  | s@(.breakOut place target) => statement s (breakTo place target fs)
  | s@(.switch _ subject cases) =>
    statement s (switchOn subject (cases.zip (lowerCases fs cases)) fs)
  | s@(.continueCase place target) => statement s (continueTo place target fs)
  | s@(.giveBack place value) =>
    statement s (giveBackThrough place fs (marked (.giveBack value) (lowerOption value)))
  | s@(.tryCatch _ body catches) =>
    statement s (tryCatch (catches.zip (lowerCatches fs catches)) (lowerStmt fs body))
  | s@(.tryFinally _ body finalizer) =>
    statement s (tryFinally (fun z => lowerStmt (z :: fs) body) (lowerStmt fs finalizer))
  | s@(.assert _ condition message) => statement s (assertion condition message)
  | s@(.yield place _) => statement s (failAt .unsupported place "yield has no lowering")

def lowerBlock (fs : Finalizers) (f : Fragment) : List Stmt → LowerM Fragment
  | [] => pure f
  | s :: rest =>
    if f.isClosed then pure f
    else do
      let g ← lowerStmt fs s
      let h ← append f g
      lowerBlock fs h rest

def lowerOptionStmt (fs : Finalizers) : Option Stmt → LowerM Fragment
  | none => pure .empty
  | some s => lowerStmt fs s

def lowerCases (fs : Finalizers) : List Tree.SwitchCase → List (LowerM Fragment)
  | [] => []
  | ⟨_, _, _, _, _, body⟩ :: rest => lowerStmt fs body :: lowerCases fs rest

def lowerCatches (fs : Finalizers) : List Tree.CatchClause → List (LowerM Fragment)
  | [] => []
  | ⟨_, _, _, _, _, body⟩ :: rest => lowerStmt fs body :: lowerCatches fs rest

end

end Flowgraph.Lowering
