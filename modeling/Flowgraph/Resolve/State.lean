import Flowgraph.Tree.Basic
import Flowgraph.Diagnostic.Basic
import Flowgraph.Text.EditDistance

/-! # The state of name resolution

Visible variables and the statements that jumps can leave. Labels that nobody
wrote are made when a jump first needs them. Diagnostics are found on the way and
never taken back.
-/

namespace Flowgraph.Resolve

open Flowgraph.Tree (Ref)

structure Binding where
  ref : Ref
  isFixed : Bool
  deriving Repr

structure Target where
  label : String := ""
  isLoop : Bool := false
  /-- The label by which `continue` names this loop. -/
  loopName : String := ""
  isSwitch : Bool := false
  cases : List (String × Ref) := []
  breakTo : Option Ref := none
  continueTo : Option Ref := none
  deriving Repr

structure State where
  classes : List (String × Position) := []
  members : List String := []
  scopes : List (List Binding) := []
  targets : List Target := []
  nextId : Nat := 0
  nextLabel : Nat := 1
  localConstants : List (Nat × Tree.Expr) := []

/-- What resolution does to the state, with the diagnostics that it finds. -/
def ResolveM (α : Type) : Type := State → α × State × List Diagnostic

instance : Monad ResolveM where
  pure a s := (a, s, [])
  bind m f s :=
    let (a, s, found) := m s
    let (b, s, more) := f a s
    (b, s, found ++ more)

instance : MonadStateOf State ResolveM where
  get s := (s, s, [])
  set s _ := (⟨⟩, s, [])
  modifyGet f s := let (a, s) := f s; (a, s, [])

def report (d : Diagnostic) : ResolveM Unit := fun s => ((), s, [d])

def reject (place : Position) (message : String) : ResolveM Unit :=
  report (.ofCode .declaration place message)

def freshId : ResolveM Nat := modifyGet fun s => (s.nextId, { s with nextId := s.nextId + 1 })

/-! ## Variables -/

/-- What is declared on the way is visible until the end only. -/
def inScope {α : Type} (m : ResolveM α) : ResolveM α := do
  modify fun s => { s with scopes := [] :: s.scopes }
  let a ← m
  modify fun s => { s with scopes := s.scopes.tail }
  return a

def State.lookup (s : State) (name : String) : Option Binding :=
  s.scopes.findSome? fun scope => scope.find? (·.ref.name = name)

def lookup (name : String) : ResolveM (Option Binding) := return (← get).lookup name

def addBinding (b : Binding) : List (List Binding) → List (List Binding)
  | [] => [[b]]
  | scope :: rest => (scope ++ [b]) :: rest

/-- Make a declaration visible. A second one of the same name in one scope is refused. -/
def declare (d : Tree.Declaration) : ResolveM Unit := do
  let s ← get
  if ((s.scopes.headD []).any (·.ref.name = d.name)) then
    reject d.place ("'" ++ d.name ++ "' is already declared in this scope")
  else
    set { s with scopes := addBinding ⟨d.ref, d.isFinal || d.isConst⟩ s.scopes }

def noteConstant (d : Tree.Declaration) : ResolveM Unit :=
  match d.isConst, d.initializer with
  | true, some e => modify fun s => { s with localConstants := s.localConstants ++ [(d.id, e)] }
  | _, _ => pure ()

def proposeFix (d : Diagnostic) (name : String) (visible : List String) : Diagnostic :=
  match Text.similarNames name visible with
  | [] => d
  | best :: _ => d.suggest ("did you mean '" ++ best ++ "'?") best

def undeclared (place : Position) (name : String) : ResolveM Unit := do
  let s ← get
  let visible := s.scopes.flatMap (·.map (·.ref.name)) ++ s.members
  let d := { Diagnostic.ofCode .undeclared place ("undeclared identifier '" ++ name ++ "'") with
    length := name.utf8ByteSize }
  report (proposeFix d name visible)

def isTypeName (name : String) : Bool :=
  match name.toList with
  | c :: _ => c.isUpper
  | [] => false

def isClass (name : String) : ResolveM Bool := return (← get).classes.any (·.1 = name)

def isMember (name : String) : ResolveM Bool := return (← get).members.contains name

/-! ## Jumps -/

/-- The inside of a target, and what jumps from there have made of the target. -/
def targeted {α : Type} (t : Target) (m : ResolveM α) : ResolveM (α × Target) := do
  modify fun s => { s with targets := t :: s.targets }
  let a ← m
  let t ← modifyGet fun s => (s.targets.headD {}, { s with targets := s.targets.tail })
  return (a, t)

/-- A scope of its own whose boundary no jump crosses. -/
def enclosed {α : Type} (m : ResolveM α) : ResolveM α := do
  let targets := (← get).targets
  modify fun s => { s with targets := [] }
  let a ← inScope m
  modify fun s => { s with targets }
  return a

def freshLabel (kind : String) : ResolveM Ref := do
  let id ← freshId
  modifyGet fun s =>
    (⟨id, ":" ++ kind ++ toString s.nextLabel⟩, { s with nextLabel := s.nextLabel + 1 })

def State.findTarget (s : State) (suits : Target → Bool) : Option (Nat × Target) :=
  match s.targets.findIdx? suits with
  | some i => s.targets[i]?.map (i, ·)
  | none => none

def setTarget (i : Nat) (t : Target) : ResolveM Unit :=
  modify fun s => { s with targets := s.targets.set i t }

/-- The label of the `i`-th target for jumps of one kind. The first jump makes it. -/
def labelOf (kind : String) (made : Option Ref) (i : Nat) (t : Ref → Target) : ResolveM Ref := do
  match made with
  | some ref => return ref
  | none =>
    let ref ← freshLabel kind
    setTarget i (t ref)
    return ref

def State.visibleLabels (s : State) : List String :=
  s.targets.reverse.flatMap fun t =>
    [t.label, t.loopName].filter (· ≠ "") ++ t.cases.map (·.1)

def undeclaredLabel (place : Position) (jump label : String) : ResolveM Unit := do
  let d := Diagnostic.ofCode .jumpTarget place (jump ++ " to undeclared label " ++ label)
  report (proposeFix d label (← get).visibleLabels)

/-- Without a label the innermost loop or switch is left, with one the statement
that carries it. -/
def breakStmt (place : Position) (label : String) : ResolveM Tree.Stmt := do
  let suits (t : Target) : Bool :=
    if label = "" then t.isLoop || t.isSwitch else t.label = label
  match (← get).findTarget suits with
  | some (i, t) =>
    return .breakOut place (← labelOf "break" t.breakTo i fun r => { t with breakTo := some r })
  | none =>
    if label = "" then
      report (.ofCode .jumpTarget place "break outside of a loop or switch")
    else undeclaredLabel place "break" label
    return .invalid place "invalid break"

/-- Leaving the body of a loop goes on with the loop; a label may also name a
case of a switch. -/
def continueStmt (place : Position) (label : String) : ResolveM Tree.Stmt := do
  let suits (t : Target) : Bool :=
    if label = "" then t.isLoop
    else if t.isSwitch then t.cases.any (·.1 = label)
    else t.isLoop && t.loopName = label
  match (← get).findTarget suits with
  | some (i, t) =>
    if t.isSwitch then
      match t.cases.find? (·.1 = label) with
      | some (_, ref) => return .continueCase place ref
      | none => return .invalid place "invalid continue"
    else
      return .breakOut place
        (← labelOf "continue" t.continueTo i fun r => { t with continueTo := some r })
  | none =>
    if label = "" then report (.ofCode .jumpTarget place "continue outside of a loop")
    else undeclaredLabel place "continue" label
    return .invalid place "invalid continue"

def wrapBreak (t : Target) (s : Tree.Stmt) : Tree.Stmt :=
  match t.breakTo with
  | some ref => .labeled ref.id s.place ref.name s
  | none => s

def wrapContinue (t : Target) (place : Position) (s : Tree.Stmt) : Tree.Stmt :=
  match t.continueTo with
  | some ref => .labeled ref.id place ref.name s
  | none => s

end Flowgraph.Resolve
