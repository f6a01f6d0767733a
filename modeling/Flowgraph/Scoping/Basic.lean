import Flowgraph.Constant.Value

/-! # Scopes and storage

What the analysis of a member finds out: its lexical scopes, its variables and
where they live, and the helper variables that lowering needs. Scopes, variables
and functions are numbered in the order in which they are met.
-/

namespace Flowgraph.Scoping

structure Variable where
  name : String
  decl : Option Nat := none
  scope : Nat := 0
  function : Nat := 0
  /-- A captured variable lives in the frame of its scope. -/
  isCaptured : Bool := false
  /-- The level of the frame that holds a captured variable, and its slot there. -/
  level : Int := 0
  index : Nat := 0
  /-- The stack slot. A captured parameter arrives there. -/
  slot : Int := 0
  names : Option Nat := none
  deriving DecidableEq, Repr, Inhabited

namespace Variable

def isSynthetic (v : Variable) : Bool := v.decl.isNone

def render (v : Variable) : String :=
  if v.isCaptured then v.name ++ "@" ++ toString v.level ++ "[" ++ toString v.index ++ "]"
  else v.name

end Variable

inductive ScopeKind
  | function
  | block
  | forLoop
  | forIn
  | handler
  | field
  deriving DecidableEq, Repr, Inhabited

def ScopeKind.text : ScopeKind → String
  | function => "FunctionNode"
  | block => "Block"
  | forLoop => "ForStatement"
  | forIn => "ForInStatement"
  | handler => "Catch"
  | field => "Field"

structure Scope where
  kind : ScopeKind
  node : Nat
  place : Position
  parent : Option Nat
  function : Nat
  loopDepth : Nat
  vars : List Nat := []
  /-- A frame is needed even without captured variables, so that closures link
  through one frame for each function. -/
  isForced : Bool := false
  captured : List Nat := []
  /-- The level of the innermost frame visible in the scope, or -1. -/
  level : Int := -1
  hasFrame : Bool := false
  deriving Inhabited

structure Layout where
  node : Option Nat
  name : String
  scope : Nat
  parent : Option Nat
  depth : Nat
  this : Option Nat := none
  parameters : List Nat := []
  defaults : List Constant.Value := []
  expressionTemp : Nat := 0
  currentContext : Nat := 0
  finallyReturn : Option Nat := none
  switches : List Nat := []
  exceptions : List Nat := []
  stackTraces : List Nat := []
  catchContexts : List Nat := []
  iterators : List Nat := []
  /-- The level of the frame that the function receives, or -1. -/
  entryLevel : Int := 0
  usesContexts : Bool := false
  slots : Nat := 0
  deriving Inhabited

structure Closure where
  body : Tree.Function
  name : String
  layout : Nat

/-- The result of an analysis. It may continue an earlier one, whose parts come
first and are not changed. -/
structure Analysis where
  vars : Array Variable := #[]
  scopes : Array Scope := #[]
  layouts : Array Layout := #[]
  closures : List Closure := []
  firstVariable : Nat := 0
  firstScope : Nat := 0
  firstLayout : Nat := 0

namespace Analysis

def var (a : Analysis) (i : Nat) : Variable := a.vars.getD i default

def scope (a : Analysis) (i : Nat) : Scope := a.scopes.getD i default

def layout (a : Analysis) (i : Nat) : Layout := a.layouts.getD i default

def member (a : Analysis) : Layout := a.layout a.firstLayout

def findFrom {α : Type} (xs : Array α) (first : Nat) (test : α → Bool) : Option Nat :=
  ((List.range (xs.size - first)).reverse.map (first + ·)).find? fun i => xs[i]?.any test

def variableOf (a : Analysis) (decl : Nat) : Option Nat :=
  findFrom a.vars a.firstVariable fun v => v.decl = some decl

def scopeOf (a : Analysis) (node : Nat) : Option Nat :=
  findFrom a.scopes a.firstScope fun s => s.node = node

def layoutOf (a : Analysis) (node : Nat) : Option Nat :=
  findFrom a.layouts a.firstLayout fun l => l.node = some node

end Analysis

end Flowgraph.Scoping
