import Flowgraph.Tree.Basic
import Flowgraph.Symbols.Name

/-! # The symbol table

Classes, fields and functions of a program, whether declared by a library or by
a manifest. Classes are known by name; fields and functions are numbered, since
a manifest may declare a name again.
-/

namespace Flowgraph.Symbols

open Flowgraph.Tree (MemberRef)

inductive FunctionKind
  | regular
  | getter
  | setter
  | constructor
  | factory
  | implicitGetter
  | implicitSetter
  | staticInitializer
  | closure
  | implicitClosure
  | other
  deriving DecidableEq, Repr, Inhabited

def FunctionKind.text : FunctionKind → String
  | getter => "getter"
  | setter => "setter"
  | constructor => "constructor"
  | factory => "factory"
  | implicitGetter => "implicit getter"
  | implicitSetter => "implicit setter"
  | staticInitializer => "static initializer"
  | closure => "closure"
  | implicitClosure => "implicit closure"
  | regular | other => "function"

structure ClassInfo where
  name : String
  super : Option String := none
  decl : Option Tree.ClassDecl := none
  fields : List Nat := []

structure FieldInfo where
  name : String
  owner : Option String := none
  isStatic : Bool := false
  isConst : Bool := false
  isFinal : Bool := false
  decl : Option Tree.Field := none
  /-- The slot of an instance field in objects of its class. -/
  offset : Nat := 0
  deriving Inhabited

namespace FieldInfo

def qualified (f : FieldInfo) : String := qualify f.owner f.name

def initializer (f : FieldInfo) : Option Tree.Expr := f.decl.bind (·.initializer)

def place (f : FieldInfo) : Position := (f.decl.map (·.place)).getD .unknown

end FieldInfo

structure FunctionInfo where
  name : String
  /-- The name that reports use. The table gives it. -/
  qualified : String := ""
  owner : Option String := none
  kind : FunctionKind := .regular
  isStatic : Bool := false
  isConst : Bool := false
  isExternal : Bool := false
  /-- What is lowered; external and implicit functions have none. -/
  body : Option Tree.Function := none
  member : Option Tree.Member := none
  field : Option Nat := none
  parent : Option Nat := none
  target : Option Nat := none
  intrinsic : String := ""
  positional : Int := 0
  required : Int := 0
  named : List String := []
  deriving Inhabited

namespace FunctionInfo

def constructor? (f : FunctionInfo) : Option Tree.Constructor :=
  match f.member with
  | some (.constructor _ c) => some c
  | _ => none

def isLowerable (f : FunctionInfo) : Bool :=
  !f.isExternal && match f.kind with
    | .implicitGetter | .implicitSetter | .staticInitializer => f.field.isSome
    | _ => f.body.isSome

def withParameters (f : FunctionInfo) : FunctionInfo :=
  match f.body with
  | none => f
  | some body => { f with positional := body.positional.length, required := body.required,
                          named := body.named.map (·.name) }

end FunctionInfo

/-- Members are found by class and name. The newest entry of a key counts. -/
abbrev Index := List (MemberRef × Nat)

def Index.get? (x : Index) (key : MemberRef) : Option Nat := (x.find? (·.1 = key)).map (·.2)

structure Table where
  classes : List ClassInfo := []
  fields : Array FieldInfo := #[]
  functions : Array FunctionInfo := #[]
  fieldIndex : Index := []
  functionIndex : Index := []
  constructorIndex : Index := []
  closures : List (Option Nat × Nat) := []
  tearOffs : List (Nat × Nat) := []
  members : List Nat := []
  /-- Nodes of the libraries so far have smaller numbers. -/
  nodeCount : Nat := 0
  localConstants : List (Nat × Tree.Expr) := []

namespace Table

def field (t : Table) (id : Nat) : FieldInfo := t.fields.getD id default

def function (t : Table) (id : Nat) : FunctionInfo := t.functions.getD id default

def class? (t : Table) (name : String) : Option ClassInfo := t.classes.find? (·.name = name)

def chainFrom (t : Table) : Nat → Option String → List ClassInfo
  | 0, _ => []
  | limit + 1, name => match name.bind t.class? with
    | none => []
    | some c => c :: t.chainFrom limit c.super

def chain (t : Table) (name : String) : List ClassInfo :=
  t.chainFrom t.classes.length (some name)

def isSubclass (t : Table) (name other : String) : Bool := (t.chain name).any (·.name = other)

/-- The instance fields of objects of a class, inherited ones first. -/
def instanceFields (t : Table) (name : String) : List Nat :=
  (t.chain name).reverse.flatMap fun c => c.fields.filter fun id => !(t.field id).isStatic

/-- Find a member. Class members are looked for in the superclasses too. -/
def lookupIn (t : Table) (x : Index) (ref : MemberRef) : Option Nat :=
  if ref.className = "" then x.get? ref
  else (t.chain ref.className).findSome? fun c => x.get? ⟨c.name, ref.name⟩

def lookupField (t : Table) (ref : MemberRef) : Option Nat := t.lookupIn t.fieldIndex ref

def lookupFunction (t : Table) (ref : MemberRef) : Option Nat := t.lookupIn t.functionIndex ref

def outermostFrom (t : Table) : Nat → Nat → Nat
  | 0, id => id
  | limit + 1, id => match (t.function id).parent with
    | none => id
    | some parent => t.outermostFrom limit parent

def outermost (t : Table) (id : Nat) : Nat := t.outermostFrom t.functions.size id

def hasReceiver (t : Table) (id : Nat) : Bool :=
  let outer := t.function (t.outermost id)
  outer.owner.isSome && !outer.isStatic && outer.kind ≠ .factory &&
    outer.kind ≠ .staticInitializer

def qualifiedName (t : Table) (f : FunctionInfo) : String :=
  match f.kind, f.parent, f.target with
  | .closure, some parent, _ => (t.function parent).qualified ++ "." ++ f.name
  | .implicitClosure, _, some target => (t.function target).qualified ++ "#tearoff"
  | _, _, _ => qualify f.owner f.name

def addFunction (t : Table) (f : FunctionInfo) : Nat × Table :=
  let f := { f with qualified := t.qualifiedName f }
  (t.functions.size, { t with functions := t.functions.push f })

/-- The closure of a nested function. It is made when first asked for. -/
def closureFunction (t : Table) (parent : Nat) (body : Option Tree.Function) (name : String) :
    Nat × Table :=
  let key := body.map (·.id)
  match t.closures.find? (·.1 = key) with
  | some (_, id) => (id, t)
  | none =>
    let outer := t.function parent
    let (id, t) := t.addFunction <| FunctionInfo.withParameters
      { name, owner := outer.owner, kind := .closure, body, member := outer.member,
        parent := some parent }
    (id, { t with closures := t.closures ++ [(key, id)] })

/-- The closure that a function evaluates to when it is not called. -/
def tearOff (t : Table) (target : Nat) : Nat × Table :=
  match t.tearOffs.find? (·.1 = target) with
  | some (_, id) => (id, t)
  | none =>
    let f := t.function target
    let (id, t) := t.addFunction
      { name := f.name, owner := f.owner, kind := .implicitClosure, isStatic := true,
        member := f.member, target := some target, positional := f.positional,
        required := f.required, named := f.named }
    (id, { t with tearOffs := t.tearOffs ++ [(target, id)] })

def closureFunctions (t : Table) : List Nat :=
  (t.closures.map (·.2) ++ t.tearOffs.map (·.2)).mergeSort fun a b =>
    decide ((t.function a).qualified ≤ (t.function b).qualified)

end Table

end Flowgraph.Symbols
