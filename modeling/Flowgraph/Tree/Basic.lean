import Flowgraph.Position

/-! # Resolved trees

A program whose names are bound: variables, labels and cases carry the number
of the declaration they belong to, operators are method calls, and every jump
names the statement it leaves. Numbers are unique within a library.
-/

namespace Flowgraph.Tree

/-- A reference to a numbered declaration, label or case, with its written name. -/
structure Ref where
  id : Nat
  name : String
  deriving DecidableEq, Repr, Inhabited

/-- A member of a class, or of the library when the class name is empty. -/
structure MemberRef where
  className : String := ""
  name : String
  deriving DecidableEq, Repr, Inhabited

def MemberRef.render (r : MemberRef) : String := r.className ++ "::" ++ r.name

inductive LogicalOp
  | and
  | or
  | ifNull
  deriving DecidableEq, Repr, Inhabited

def LogicalOp.text : LogicalOp → String
  | and => "&&"
  | or => "||"
  | ifNull => "??"

mutual

inductive Expr
  | absent
  | invalid (place : Position) (message : String)
  | null (place : Position)
  | bool (place : Position) (value : Bool)
  | int (place : Position) (value : Int64)
  | double (place : Position) (value : Float)
  | string (place : Position) (value : String)
  | symbol (place : Position) (name : String)
  | typeLit (place : Position) (className : String)
  | this (place : Position)
  | get (place : Position) (var : Ref)
  | set (place : Position) (var : Ref) (value : Expr)
  | staticGet (place : Position) (target : MemberRef)
  | staticSet (place : Position) (target : MemberRef) (value : Expr)
  | propertyGet (place : Position) (receiver : Expr) (name : String)
  | propertySet (place : Position) (receiver : Expr) (name : String) (value : Expr)
  | directGet (place : Position) (receiver : Expr) (target : MemberRef)
  | directSet (place : Position) (receiver : Expr) (target : MemberRef) (value : Expr)
  | staticCall (place : Position) (target : MemberRef) (args : Arguments) (isConst : Bool)
  | methodCall (place : Position) (receiver : Expr) (name : String) (args : Arguments)
  | construct (place : Position) (target : MemberRef) (args : Arguments) (isConst : Bool)
  | isType (place : Position) (operand : Expr) (className : String)
  | asType (place : Position) (operand : Expr) (className : String)
  | conditional (place : Position) (condition yes no : Expr)
  | logical (place : Position) (op : LogicalOp) (left right : Expr)
  | not (place : Position) (operand : Expr)
  | concat (place : Position) (parts : List Expr)
  | list (place : Position) (elements : List Expr) (isConst : Bool)
  | map (place : Position) (entries : List MapEntry) (isConst : Bool)
  | function (place : Position) (body : Function)
  | letIn (place : Position) (decl : Declaration) (body : Expr)
  | throw (place : Position) (value : Expr)
  | rethrow (place : Position)

structure NamedArgument where
  name : String
  value : Expr

structure Arguments where
  positional : List Expr := []
  named : List NamedArgument := []

structure MapEntry where
  key : Expr
  value : Expr

structure Declaration where
  id : Nat
  place : Position
  name : String
  initializer : Option Expr := none
  isConst : Bool := false
  isFinal : Bool := false

/-- Parameters and body. The first `required` positional parameters have no
default, the others are optional. -/
structure Function where
  id : Nat
  place : Position
  positional : List Declaration := []
  required : Nat := 0
  named : List Declaration := []
  body : Option Stmt := none

inductive Stmt
  | absent
  | invalid (place : Position) (message : String)
  | empty (place : Position)
  | block (id : Nat) (place : Position) (statements : List Stmt)
  | expr (place : Position) (value : Expr)
  | declare (decl : Declaration)
  | function (place : Position) (decl : Declaration) (body : Function)
  | branch (place : Position) (condition : Expr) (yes : Stmt) (no : Option Stmt)
  | whileDo (place : Position) (condition : Expr) (body : Stmt)
  | doWhile (place : Position) (body : Stmt) (condition : Expr)
  | forLoop (id : Nat) (place : Position) (vars : List Declaration)
      (condition : Option Expr) (updates : List Expr) (body : Stmt)
  | forIn (id : Nat) (place : Position) (decl : Declaration) (iterable : Expr) (body : Stmt)
  | labeled (id : Nat) (place : Position) (label : String) (body : Stmt)
  | breakOut (place : Position) (target : Ref)
  | switch (place : Position) (subject : Expr) (cases : List SwitchCase)
  | continueCase (place : Position) (target : Ref)
  | giveBack (place : Position) (value : Option Expr)
  | tryCatch (place : Position) (body : Stmt) (catches : List CatchClause)
  | tryFinally (place : Position) (body finalizer : Stmt)
  | assert (place : Position) (condition : Expr) (message : Option Expr)
  | yield (place : Position) (value : Expr)

/-- A case with several tests. A default case may have tests too. -/
structure SwitchCase where
  id : Nat
  place : Position
  label : String
  tests : List Expr
  isDefault : Bool
  body : Stmt

structure CatchClause where
  id : Nat
  place : Position
  guard : String
  exception : Option Declaration
  stackTrace : Option Declaration
  body : Stmt

end

instance : Inhabited Expr := ⟨.absent⟩
instance : Inhabited Stmt := ⟨.absent⟩
instance : Inhabited Arguments := ⟨{}⟩
instance : Inhabited Declaration := ⟨{ id := 0, place := .unknown, name := "" }⟩
instance : Inhabited Function := ⟨{ id := 0, place := .unknown }⟩
instance : Inhabited SwitchCase := ⟨⟨0, .unknown, "", [], false, .absent⟩⟩
instance : Inhabited CatchClause := ⟨⟨0, .unknown, "", none, none, .absent⟩⟩

def Expr.place : Expr → Position
  | absent => .unknown
  | invalid p .. | null p | bool p .. | int p .. | double p .. | string p .. | symbol p ..
  | typeLit p .. | this p | get p .. | set p .. | staticGet p .. | staticSet p ..
  | propertyGet p .. | propertySet p .. | directGet p .. | directSet p .. | staticCall p ..
  | methodCall p .. | construct p .. | isType p .. | asType p .. | conditional p .. | logical p ..
  | not p .. | concat p .. | list p .. | map p .. | function p .. | letIn p .. | throw p ..
  | rethrow p => p

def Stmt.place : Stmt → Position
  | absent => .unknown
  | declare d => d.place
  | invalid p .. | empty p | block _ p .. | expr p .. | function p .. | branch p .. | whileDo p ..
  | doWhile p .. | forLoop _ p .. | forIn _ p .. | labeled _ p .. | breakOut p .. | switch p ..
  | continueCase p .. | giveBack p .. | tryCatch p .. | tryFinally p .. | assert p ..
  | yield p .. => p

namespace Declaration

def ref (d : Declaration) : Ref := ⟨d.id, d.name⟩

end Declaration

namespace Arguments

def count (a : Arguments) : Nat := a.positional.length + a.named.length

def names (a : Arguments) : List String := a.named.map NamedArgument.name

end Arguments

namespace Function

def parameters (f : Function) : List Declaration := f.positional ++ f.named

def optional (f : Function) : List Declaration := f.positional.drop f.required ++ f.named

end Function

/-! ## Members -/

inductive ProcedureKind
  | method
  | get
  | set
  | factory
  deriving DecidableEq, Repr, Inhabited

def ProcedureKind.text : ProcedureKind → String
  | method => "method"
  | get => "get"
  | set => "set"
  | factory => "factory"

inductive Initializer
  | field (place : Position) (name : String) (value : Expr)
  | superCall (place : Position) (target : MemberRef) (args : Arguments)
  | redirect (place : Position) (target : MemberRef) (args : Arguments)

def Initializer.place : Initializer → Position
  | field p .. | superCall p .. | redirect p .. => p

structure Field where
  id : Nat
  place : Position
  name : String
  isStatic : Bool
  isConst : Bool
  isFinal : Bool
  initializer : Option Expr

structure Procedure where
  place : Position
  name : String
  kind : ProcedureKind
  isStatic : Bool
  isExternal : Bool
  function : Option Function

structure Constructor where
  place : Position
  name : String
  isConst : Bool
  function : Function
  initializers : List Initializer

/-- A constructor that delegates to another one of its class leaves the fields to it. -/
def Constructor.isRedirecting (c : Constructor) : Bool :=
  c.initializers.any fun | .redirect .. => true | _ => false

structure ClassDecl where
  place : Position
  name : String
  super : String
  fields : List Field := []
  constructors : List Constructor := []
  procedures : List Procedure := []

structure Library where
  place : Position
  name : String
  classes : List ClassDecl := []
  fields : List Field := []
  procedures : List Procedure := []
  /-- The initializers of constant local variables, by the number of the variable. -/
  localConstants : List (Nat × Expr) := []
  nodeCount : Nat := 0

inductive Member
  | field (owner : Option ClassDecl) (decl : Field)
  | procedure (owner : Option ClassDecl) (decl : Procedure)
  | constructor (owner : ClassDecl) (decl : Constructor)

namespace Member

def name : Member → String
  | field _ f => f.name
  | procedure _ p => p.name
  | constructor _ c => c.name

def owner : Member → Option ClassDecl
  | field o _ => o
  | procedure o _ => o
  | constructor o _ => some o

def place : Member → Position
  | field _ f => f.place
  | procedure _ p => p.place
  | constructor _ c => c.place

end Member

def ClassDecl.members (c : ClassDecl) : List Member :=
  c.fields.map (.field (some c)) ++ c.constructors.map (.constructor c) ++
    c.procedures.map (.procedure (some c))

def Library.members (l : Library) : List Member :=
  l.fields.map (.field none) ++ l.procedures.map (.procedure none) ++
    l.classes.flatMap ClassDecl.members

end Flowgraph.Tree
