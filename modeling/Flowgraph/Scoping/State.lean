import Flowgraph.Scoping.Basic
import Flowgraph.Failure

/-! # The state of scope analysis

Declares variables, counts the constructs around the current place, and marks
what a reference captures.
-/

namespace Flowgraph.Scoping

structure Depths where
  loop : Nat := 0
  attempt : Nat := 0
  handler : Nat := 0
  finalizer : Nat := 0
  forIn : Nat := 0
  switch : Nat := 0
  deriving DecidableEq, Repr, Inhabited

structure DefaultRequest where
  layout : Nat
  value : Option Tree.Expr

structure State where
  analysis : Analysis := {}
  enclosing : Option Nat := none
  scope : Option Nat := none
  layout : Option Nat := none
  depths : Depths := {}
  closureCount : Nat := 0
  requests : List DefaultRequest := []

abbrev ScopeM := ExceptT Failure (StateM State)

def malformed {α : Type} (place : Position) (message : String) : ScopeM α :=
  throw (.of .malformed place message)

def changeAnalysis (f : Analysis → Analysis) : ScopeM Unit :=
  modify fun s => { s with analysis := f s.analysis }

def changeDepths (f : Depths → Depths) : ScopeM Unit :=
  modify fun s => { s with depths := f s.depths }

def changeLayout (f : Layout → Layout) : ScopeM Unit := do
  let some i := (← get).layout | return
  changeAnalysis fun a => { a with layouts := a.layouts.modify i f }

/-! ## Scopes and variables -/

def enterScope (kind : ScopeKind) (node : Nat) (place : Position) : ScopeM Unit :=
  modify fun s =>
    let scope : Scope :=
      { kind, node, place, parent := s.scope, function := s.layout.getD 0,
        loopDepth := s.depths.loop }
    { s with analysis := { s.analysis with scopes := s.analysis.scopes.push scope },
             scope := some s.analysis.scopes.size }

def exitScope : ScopeM Unit :=
  modify fun s => { s with scope := s.scope.bind fun i => (s.analysis.scope i).parent }

def allocate (name : String) (decl : Option Nat) (scope : Nat) : ScopeM Nat := do
  let s ← get
  let function := s.layout.getD 0
  let v : Variable :=
    { name, decl, scope, function, slot := (s.analysis.layout function).slots }
  changeLayout fun l => { l with slots := l.slots + 1 }
  changeAnalysis fun a => { a with vars := a.vars.push v }
  return s.analysis.vars.size

def synthetic (name : String) : ScopeM Nat := do
  let s ← get
  allocate name none (s.analysis.layout (s.layout.getD 0)).scope

def declareIn (name : String) (decl : Option Nat) : ScopeM Nat := do
  let scope := (← get).scope.getD 0
  let v ← allocate name decl scope
  changeAnalysis fun a => { a with scopes := a.scopes.modify scope fun s =>
    { s with vars := s.vars ++ [v] } }
  return v

def declare (d : Tree.Declaration) : ScopeM Nat := do
  if ((← get).analysis.variableOf d.id).isSome then
    malformed d.place ("variable '" ++ d.name ++ "' is declared twice")
  declareIn d.name (some d.id)

/-! ## References -/

def Analysis.lookupFrom (a : Analysis) (decl : Nat) : Nat → Option Nat → Option Nat
  | 0, _ => none
  | _ + 1, none => none
  | limit + 1, some i =>
    match (a.scope i).vars.find? fun v => (a.var v).decl = some decl with
    | some v => some v
    | none => a.lookupFrom decl limit (a.scope i).parent

def Analysis.lookup (a : Analysis) (scope : Option Nat) (decl : Nat) : Option Nat :=
  a.lookupFrom decl a.scopes.size scope

/-- The functions from `i` outwards, without those from `stop` on. -/
def Analysis.enclosers (a : Analysis) (stop : Nat) : Nat → Option Nat → List Nat
  | 0, _ => []
  | _ + 1, none => []
  | limit + 1, some i =>
    if i = stop then [] else i :: a.enclosers stop limit (a.layout i).parent

def Analysis.forceFrame (a : Analysis) (layout : Nat) : Analysis :=
  { a with scopes := a.scopes.modify (a.layout layout).scope fun s => { s with isForced := true } }

/-- A reference from an inner function moves a variable to a frame, and every
function in between gets a frame to link through. -/
def capture (v : Nat) : ScopeM Unit := do
  let s ← get
  let home := (s.analysis.var v).function
  if s.layout ≠ some home then
    changeAnalysis fun a =>
      let a := { a with vars := a.vars.modify v fun x => { x with isCaptured := true } }
      (a.enclosers home a.layouts.size s.layout).foldl Analysis.forceFrame a

def use (place : Position) (ref : Tree.Ref) : ScopeM Unit := do
  let s ← get
  match s.analysis.lookup s.scope ref.id with
  | none => malformed place ("variable '" ++ ref.name ++ "' is used outside its scope")
  | some v =>
    if (s.analysis.variableOf ref.id).isNone && !(s.analysis.var v).isCaptured then
      malformed place
        ("variable '" ++ ref.name ++ "' of the enclosing function is not captured")
    capture v

def useThis (place : Position) : ScopeM Unit := do
  match (← get).analysis.member.this with
  | none => malformed place "'this' used in a member without a receiver"
  | some v => capture v

/-! ## Helper variables -/

/-- The helper variable of one depth is made when that depth is first reached. -/
def helper (vars : Layout → List Nat) (put : Layout → List Nat → Layout) (name : String)
    (depth : Nat) : ScopeM Unit := do
  let s ← get
  let known := vars (s.analysis.layout (s.layout.getD 0))
  if known.length ≤ depth then
    let v ← synthetic (name ++ toString depth)
    changeLayout fun l => put l (vars l ++ [v])

def helpSwitch : ScopeM Unit := do
  helper (·.switches) (fun l vs => { l with switches := vs }) ":switch" (← get).depths.switch

def helpAttempt : ScopeM Unit := do
  helper (·.catchContexts) (fun l vs => { l with catchContexts := vs }) ":catch_context"
    (← get).depths.attempt

def helpHandler : ScopeM Unit := do
  let depth := (← get).depths.handler - 1
  helper (·.exceptions) (fun l vs => { l with exceptions := vs }) ":exception" depth
  helper (·.stackTraces) (fun l vs => { l with stackTraces := vs }) ":stack_trace" depth

def helpIterator : ScopeM Unit := do
  helper (·.iterators) (fun l vs => { l with iterators := vs }) ":iterator" (← get).depths.forIn

def helpReturn : ScopeM Unit := do
  let s ← get
  if 0 < s.depths.finalizer && (s.analysis.layout (s.layout.getD 0)).finallyReturn.isNone then
    let v ← synthetic ":finally_ret_val"
    changeLayout fun l => { l with finallyReturn := some v }

end Flowgraph.Scoping
