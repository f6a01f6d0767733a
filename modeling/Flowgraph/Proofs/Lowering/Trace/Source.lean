import Flowgraph.Lowering.Loop
import Flowgraph.Proofs.Graph.Code

/-! # What statements do

An oracle decides the conditions of a function body, one after the other. What the
body does then is what control meets on its way: conditions with their outcomes,
statements, updates and what is given back. Loops may go on forever, so they are
followed for a bounded number of turns.

In code control meets what is noted at the instructions. The oracle decides the
conditions of statements only, so control may take either side of any other branch.
-/

namespace Flowgraph.Graph

/-- Where control goes from an instruction if nothing is thrown. -/
def Code.after (c : Code) (i : Nat) : List Nat :=
  if (c.op i).isTerminator then (c.op i).targets else (c.get i).next.toList

/-- The events that are noted at an instruction. -/
def Sources.eventsAt (k : Sources) (i : Nat) : List Event :=
  (k.events.filter (·.1 = some i)).map (·.2)

end Flowgraph.Graph

namespace Flowgraph.Lowering.Trace

open Flowgraph.Graph (Code Event)
open Flowgraph.Tree (Declaration Expr Stmt)

/-- How a statement ends. -/
inductive Ending
  | normal
  | broke (label : Nat)
  | returned

/-- How a turn of a loop ends. -/
inductive Turn
  | again
  | leave
  | stop (e : Ending)

/-- A body that ends normally is run again. -/
def Ending.turn : Ending → Turn
  | normal => .again
  | e => .stop e

/-- A break leaves the statement that carries its label. -/
def Ending.outOf (label : Nat) : Ending → Ending
  | broke l => if l = label then normal else broke l
  | e => e

/-- The condition of a loop, unless the loop is left by jumps only. -/
def tested (condition : Option Expr) : Option Expr := condition.filter (!isAlways ·)

def isTest : Event → Bool
  | .test .. => true
  | _ => false

/-- How many conditions were decided. -/
def tests (met : List Event) : Nat := met.countP isTest

/-! ## Execution -/

/-- An execution adds what it meets. It is given up when a loop takes too many turns. -/
abbrev Run := OptionT (StateM (List Event))

namespace Run

def meet (events : List Event) (e : Ending) : Run Ending := do
  modify (· ++ events)
  return e

/-- The oracle decides a condition. Without one there is nothing to decide. -/
def test (ρ : Nat → Bool) : Option Expr → Run Bool
  | none => return true
  | some c => do
    let outcome := ρ (tests (← get))
    modify (· ++ [.test c outcome])
    return outcome

/-- Go on after a normal end. -/
def andThen (first second : Run Ending) : Run Ending := do
  match ← first with
  | .normal => second
  | e => return e

def loop (turn : Run Turn) : Nat → Run Ending
  | 0 => failure
  | n + 1 => do
    match ← turn with
    | .again => loop turn n
    | .leave => return .normal
    | .stop e => return e

/-- A turn that starts with the condition. -/
def testFirst (ρ : Nat → Bool) (c : Option Expr) (body : Run Ending) : Run Turn := do
  if ← test ρ c then return (← body).turn else return .leave

/-- A turn that ends with the condition. -/
def testLast (ρ : Nat → Bool) (c : Option Expr) (body : Run Ending) : Run Turn := do
  match ← body with
  | .normal => return if ← test ρ c then .again else .leave
  | e => return .stop e

end Run

section

-- `ρ` decides the conditions, and a loop takes less than `n` turns.
variable (ρ : Nat → Bool) (n : Nat)

mutual

def execute : Stmt → Run Ending
  | .block _ _ statements => executeAll statements
  | .expr _ value => .meet [.evaluate value] .normal
  | .declare d => .meet [.declare d] .normal
  | .branch _ condition yes no => do
    if ← Run.test ρ (some condition) then execute yes else executeOption no
  | .whileDo _ condition body =>
    (Run.testFirst ρ (tested (some condition)) (execute body)).loop n
  | .doWhile _ body condition =>
    (Run.testLast ρ (tested (some condition)) (execute body)).loop n
  | .forLoop _ _ vars condition updates body =>
    (Run.meet (vars.map .declare) .normal).andThen <| Run.loop
      (Run.testFirst ρ (tested condition)
        ((execute body).andThen (.meet (updates.map .update) .normal))) n
  | .labeled id _ _ body => do return (← execute body).outOf id
  | .breakOut _ target => return .broke target.id
  | .giveBack _ value => .meet [.giveBack value] .returned
  | _ => return .normal

def executeAll : List Stmt → Run Ending
  | [] => return .normal
  | s :: rest => (execute s).andThen (executeAll rest)

def executeOption : Option Stmt → Run Ending
  | none => return .normal
  | some s => execute s

end

/-- Null is given back where the end of a body is reached. -/
def executeBody (body : Option Stmt) : Run Ending :=
  (executeOption ρ n body).andThen (.meet [.giveBack none] .returned)

/-- What a body meets. -/
def trace (body : Option Stmt) : List Event := ((executeBody ρ n body).run.run []).2

end

/-! ## Code -/

/-- The outcomes of the conditions are those of the oracle, if `k` conditions came before. -/
def Follows (ρ : Nat → Bool) : Nat → List Event → Prop
  | _, [] => True
  | k, .test _ b :: l => b = ρ k ∧ Follows ρ (k + 1) l
  | k, _ :: l => Follows ρ k l

/-- From an instruction on, control can meet these events within a number of steps. -/
inductive Meets (c : Code) (k : Nat → List Event) : Nat → Nat → List Event → Prop
  | here {n i : Nat} {l : List Event} : l <+: k i → Meets c k n i l
  | step {n i j : Nat} {l : List Event} : j ∈ c.after i → Meets c k n j l →
    Meets c k (n + 1) i (k i ++ l)

def CanMeet (c : Code) (k : Nat → List Event) (i : Nat) (l : List Event) : Prop :=
  ∃ n, Meets c k n i l

/-- An oracle that decided `q` conditions lets control go from `i` to `j`. Only between the
outcomes of a condition it has a say. -/
def Lets (c : Code) (k : Nat → List Event) (ρ : Nat → Bool) (q i j : Nat) : Prop :=
  ∀ condition yes no, c.after i = [yes, no] → k yes = [.test condition true] →
    k no = [.test condition false] → j = if ρ q then yes else no

/-- Whatever way control takes from an instruction on, it meets these events, if the oracle has
decided `q` conditions before. -/
inductive MustMeet (c : Code) (k : Nat → List Event) (ρ : Nat → Bool) :
    Nat → Nat → List Event → Prop
  | here {q i : Nat} {l : List Event} : l <+: k i → MustMeet c k ρ q i l
  | step {q i : Nat} {l : List Event} : c.after i ≠ [] →
    (∀ j ∈ c.after i, Lets c k ρ (q + tests (k i)) i j → MustMeet c k ρ (q + tests (k i)) j l) →
    MustMeet c k ρ q i (k i ++ l)

end Flowgraph.Lowering.Trace
