import Flowgraph.Lowering.Build

/-! # Lowering programs

Lowers every function that libraries declare, then the closures that their
graphs allocate, round by round until no new closure appears. A function that
fails does not stop the others.
-/

namespace Flowgraph.Lowering

open Constant (EvalM Stop Store)
open Symbols (Table)

structure Result where
  function : Nat
  outcome : Except Failure Graph

def attempt (settings : Settings) (id : Nat) : EvalM Result := do
  try return ⟨id, .ok (← build settings id)⟩
  catch
    | .failed f => return ⟨id, .error f⟩
    | stop => throw stop

def Result.closures (r : Result) : List Nat :=
  match r.outcome with
  | .ok g => g.closures
  | .error _ => []

/-- The closures of a round that were not met before, each once, ordered by name. -/
def nextRound (t : Table) (seen : List Nat) (results : List Result) : List Nat :=
  let new := (results.flatMap Result.closures).filter (!seen.contains ·)
  new.eraseDups.mergeSort fun a b => decide ((t.function a).qualified ≤ (t.function b).qualified)

/-- At most `limit` rounds, the first of them on `pending`. -/
def rounds (settings : Settings) : Nat → List Nat → List Nat → EvalM (List Result)
  | 0, _, _ => throw .exhausted
  | limit + 1, seen, pending => do
    if pending.isEmpty then return []
    let results ← pending.mapM (attempt settings)
    let seen := seen ++ pending
    let rest ← rounds settings limit seen (nextRound (← get).table seen results)
    return results ++ rest

/-- Lower a program. There are no more closures than nested functions and functions
to tear off, which bounds the rounds. -/
def lowerProgram (settings : Settings) : EvalM (List Result) := do
  let t := (← get).table
  rounds settings (t.nodeCount + t.functions.size + 2) []
    (t.members.filter fun id => (t.function id).isLowerable)

/-! ## Summary -/

structure Summary where
  functions : Nat := 0
  closures : Nat := 0
  failed : Nat := 0
  blocks : Nat := 0
  instructions : Nat := 0
  loops : Nat := 0

def Summary.add (t : Table) (s : Summary) (r : Result) : Summary :=
  let kind := (t.function r.function).kind
  let isClosure := kind = .closure || kind = .implicitClosure
  let s := { s with functions := s.functions + 1
                    closures := s.closures + if isClosure then 1 else 0 }
  match r.outcome with
  | .error _ => { s with failed := s.failed + 1 }
  | .ok g =>
    let stats := g.stats
    { s with blocks := s.blocks + stats.blocks
             instructions := s.instructions + stats.instructions
             loops := s.loops + stats.loops }

def summarize (t : Table) (results : List Result) : Summary := results.foldl (Summary.add t) {}

def Summary.text (s : Summary) : String :=
  toString s.functions ++ " functions (" ++ toString s.closures ++ " closures), " ++
    toString s.blocks ++ " blocks, " ++ toString s.instructions ++ " instructions, " ++
    toString s.loops ++ " loops, " ++ toString s.failed ++ " failed"

end Flowgraph.Lowering
