import Flowgraph.Lowering.Jump

/-! # Switches

The bodies of the cases are lowered before the tests, so that a continue, a body
that runs into the next one, and a case with several tests can ask for a join in
front of a body.
-/

namespace Flowgraph.Lowering

open Flowgraph.Graph (Fragment)
open Scoping (Variable)
open Flowgraph.Tree (SwitchCase)

/-- The join in front of a case of the switch that is `depth` switches out. -/
def caseDestination (depth index : Nat) : LowerM Nat := do
  let t ← required (← get).switches[depth]?
  match t.destinations.find? (·.1 = index) with
  | some (_, join) => return join
  | none =>
    let join ← emitBlock .join t.landing.tryIndex
    let reach (t : SwitchTargets) : SwitchTargets :=
      { t with destinations := (index, join) :: t.destinations }
    modify fun s => { s with switches := s.switches.modify depth reach }
    return join

def SwitchTargets.joinOf (t : SwitchTargets) (index : Nat) : Option Nat :=
  (t.destinations.find? (·.1 = index)).map (·.2)

def jumpedTo (index : Nat) : LowerM (Option Nat) := do
  let t ← required (← get).switches.head?
  return t.joinOf index

def SwitchTargets.find (t : SwitchTargets) (id : Nat) : Option Nat :=
  ((t.cases.zipIdx.filter (·.1 = id)).getLast?).map (·.2)

def continueTo (place : Position) (target : Tree.Ref) (fs : Finalizers) : LowerM Fragment := do
  let found := (← get).switches.zipIdx.findSome? fun (t, depth) =>
    (t.find target.id).map fun index => (t, depth, index)
  match found with
  | none => malformed place "continue to a switch case that does not enclose it"
  | some (t, depth, index) =>
    let join ← caseDestination depth index
    jumpTo fs t.landing do
      let jump ← gotoJoin join (some (.continueTo target.id))
      note fun k => { k with continues := (jump.entry, target.id) :: k.continues }
      return jump

/-- Lower the bodies of the cases from the given index on. Each is given as it is and with
the jump to the next one, if it runs into it. -/
def caseBodies : Nat → List (SwitchCase × LowerM Fragment) → LowerM (List (Fragment × Fragment))
  | _, [] => pure []
  | index, (c, code) :: rest => do
    let body ← code
    let body ← if body.isEmpty then inOrder [nullConstant, drop] else pure body
    let whole ← if !c.isDefault && body.isOpen && !rest.isEmpty then
        chain body [do gotoJoin (← caseDestination 0 (index + 1))]
      else pure body
    if 1 < c.tests.length then
      let _ ← caseDestination 0 index
    return (body, whole) :: (← caseBodies (index + 1) rest)

/-- Lower the tests of one case after `current`. What is left open is where all fail. -/
def caseTests (subject : Variable) (destination : Option Nat) (body : Fragment) :
    List Tree.Expr → Fragment → LowerM Fragment
  | [], current => pure current
  | test :: tests, current => do
    let f ← chain current [foldedConstant test, pushArgument, loadLocal subject, pushArgument,
      instanceCall Symbols.equalsOperator 2 []]
    let b ← branchIfTrue false
    let f ← append f b.code
    let _ ← startingAt b.yes [match destination with
      | some join => gotoJoin join
      | none => pure body]
    caseTests subject destination body tests (f.exitingAt b.no)

/-- Lower the tests of all cases from the given index on, and tell the last body. -/
def switchTests (subject : Variable) : Nat → List (SwitchCase × Fragment) → Fragment →
    LowerM Fragment
  | _, [], current => pure current
  | index, (c, body) :: rest, current => do
    let destination ← jumpedTo index
    let body ← match destination with
      | some join => startingAt join [pure body]
      | none => pure body
    let current ← match c.isDefault, destination with
      | true, some join => do
        let f ← chain current [gotoJoin join]
        pure ⟨f.entry, body.exit⟩
      | true, none => append current body
      | false, _ => caseTests subject destination body c.tests current
    if rest.isEmpty && !c.isDefault && body.isOpen then
      let join ← makeJoin
      let _ ← chain current [gotoJoin join]
      let _ ← chain body [gotoJoin join]
      return current.exitingAt join
    switchTests subject (index + 1) rest current

def caseLayouts (t : SwitchTargets) (cases : List SwitchCase) (bodies : List Fragment) :
    List Graph.CaseLayout :=
  (cases.zip bodies).zipIdx.map fun ((source, body), index) =>
    { source, body, join := t.joinOf index }

def switchOn (subject : Tree.Expr) (cases : List (SwitchCase × LowerM Fragment))
    (fs : Finalizers) : LowerM Fragment := do
  let before ← get
  let v ← helperAt (·.switches) before.depths.switch
  let code ← lowerExpr subject
  let value := (← get).stack.head?.map (·.definition)
  let head ← chain code [storeLocal v, drop]
  match (cases.map (·.1)).dropLast.find? (·.isDefault) with
  | some c => malformed c.place "default case must be the last case of a switch"
  | none =>
    let targets : SwitchTargets := { cases := cases.map (·.1.id), landing := ← landing fs }
    modify fun s => { s with switches := targets :: s.switches }
    changeDepths fun d => { d with switch := d.switch + 1 }
    let bodies ← caseBodies 0 cases
    let f ← switchTests v 0 ((cases.map (·.1)).zip (bodies.map (·.2))) head
    let after ← get
    let t ← required after.switches.head?
    note fun k => { k with switches :=
      { subject, code, value, holder := v, whole := f
        cases := caseLayouts t (cases.map (·.1)) (bodies.map (·.1))
        first := before.code.size, past := after.code.size } :: k.switches }
    changeDepths fun d => { d with switch := d.switch - 1 }
    modify fun s => { s with switches := s.switches.tail }
    return f

end Flowgraph.Lowering
