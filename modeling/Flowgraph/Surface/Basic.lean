import Flowgraph.Position

/-! # Surface syntax

The shape of a source text before its names are resolved. Operators carry the
text they were written with.
-/

namespace Flowgraph.Surface

inductive LogicalOp
  | and
  | or
  | ifNull
  deriving DecidableEq, Repr, Inhabited

inductive VariableKind
  | var
  | final
  | const
  deriving DecidableEq, Repr, Inhabited

inductive ProcedureKind
  | method
  | get
  | set
  | factory
  deriving DecidableEq, Repr, Inhabited

structure CatchBinding where
  place : Position
  exception : String
  stackTrace : String
  deriving Repr, Inhabited

mutual

inductive Expr
  | assign (place : Position) (target value : Expr)
  | conditional (place : Position) (condition yes no : Expr)
  | logical (place : Position) (op : LogicalOp) (left right : Expr)
  | binary (place : Position) (op : String) (left right : Expr)
  | isType (place : Position) (operand : Expr) (className : String)
  | asType (place : Position) (operand : Expr) (className : String)
  | unary (place : Position) (op : String) (operand : Expr)
  | chain (head : Primary) (suffixes : List Suffix)

inductive Primary
  | null (place : Position)
  | bool (place : Position) (value : Bool)
  | this (place : Position)
  | float (place : Position) (value : Float)
  | integer (place : Position) (text : String)
  | string (place : Position) (parts : List StringPart)
  | symbol (place : Position) (name : String)
  | typeName (place : Position) (name : String)
  | new (place : Position) (className name : String) (args : Arguments)
  | constNew (place : Position) (target name : String) (args : Arguments)
  | list (place : Position) (isConst : Bool) (elements : List Expr)
  | map (place : Position) (isConst : Bool) (entries : List MapEntry)
  | function (place : Position) (params : Parameters) (body : Body)
  | letIn (place : Position) (name : String) (value body : Expr)
  | throw (place : Position) (value : Expr)
  | rethrow (place : Position)
  | ident (place : Position) (name : String)
  | paren (place : Position) (inner : Expr)

inductive Suffix
  | member (place : Position) (name : String) (args : Option Arguments)
  | direct (place : Position) (className name : String) (args : Option Arguments)
  | call (place : Position) (args : Arguments)
  | index (place : Position) (index : Expr)

inductive Arguments
  | mk (place : Position) (items : List Argument)

/-- An empty name marks a positional argument. -/
inductive Argument
  | mk (place : Position) (name : String) (value : Expr)

inductive StringPart
  | chars (place : Position) (text : String)
  | escaped (place : Position) (text : String)
  | interpolation (place : Position) (value : Expr)

inductive MapEntry
  | mk (key value : Expr)

inductive Body
  | block (body : Block)
  | arrow (place : Position) (value : Expr)
  | none (place : Position)

inductive Parameters
  | mk (place : Position) (groups : List ParameterGroup)

inductive ParameterGroup
  | required (param : Parameter)
  | optional (params : List Parameter)
  | named (params : List Parameter)

inductive Parameter
  | mk (place : Position) (name : String) (default : Option Expr)

inductive Block
  | mk (place : Position) (statements : List Stmt)

inductive Stmt
  | block (body : Block)
  | empty (place : Position)
  | declare (place : Position) (kind : VariableKind) (declarators : List Declarator)
  | function (place : Position) (name : String) (params : Parameters) (body : Body)
  | branch (place : Position) (condition : Expr) (yes : Stmt) (no : Option Stmt)
  | whileDo (place : Position) (condition : Expr) (body : Stmt)
  | doWhile (place : Position) (body : Stmt) (condition : Expr)
  | forIn (place : Position) (varPlace : Position) (kind : VariableKind) (name : String)
      (iterable : Expr) (body : Stmt)
  | forLoop (place : Position) (kind : VariableKind) (init : List Declarator)
      (condition : Option Expr) (updates : List Expr) (body : Stmt)
  | switch (place : Position) (subject : Expr) (cases : List SwitchCase)
  | breakOut (place : Position) (label : String)
  | continueOn (place : Position) (label : String)
  | giveBack (place : Position) (value : Option Expr)
  | attempt (place : Position) (body : Block) (catches : List CatchClause) (finalizer : Option Block)
  | assert (place : Position) (condition : Expr) (message : Option Expr)
  | yield (place : Position) (value : Expr)
  | labeled (place : Position) (label : String) (body : Stmt)
  | expr (place : Position) (value : Expr)

inductive Declarator
  | mk (place : Position) (name : String) (value : Option Expr)

/-- An empty label marks an unlabelled case. -/
inductive SwitchCase
  | mk (place : Position) (label : String) (tests : List CaseTest) (body : List Stmt)

inductive CaseTest
  | default
  | value (test : Expr)

/-- An empty guard catches everything. -/
inductive CatchClause
  | mk (place : Position) (guard : String) (binding : Option CatchBinding) (body : Block)

end

instance : Inhabited Expr := ⟨.chain (.null .unknown) []⟩
instance : Inhabited Primary := ⟨.null .unknown⟩
instance : Inhabited Arguments := ⟨.mk .unknown []⟩
instance : Inhabited Parameters := ⟨.mk .unknown []⟩
instance : Inhabited Parameter := ⟨.mk .unknown "" none⟩
instance : Inhabited Body := ⟨.none .unknown⟩
instance : Inhabited Block := ⟨.mk .unknown []⟩
instance : Inhabited Stmt := ⟨.empty .unknown⟩

def Stmt.place : Stmt → Position
  | block (.mk p _) => p
  | empty p | declare p .. | function p .. | branch p .. | whileDo p .. | doWhile p .. | forIn p ..
  | forLoop p .. | switch p .. | breakOut p .. | continueOn p .. | giveBack p .. | attempt p ..
  | assert p .. | yield p .. | labeled p .. | expr p .. => p

inductive Initializer
  | superCall (place : Position) (name : String) (args : Arguments)
  | redirect (place : Position) (name : String) (args : Arguments)
  | field (place : Position) (name : String) (value : Expr)

inductive MemberShape
  | field (place : Position) (kind : VariableKind) (name : String) (value : Option Expr)
  | procedure (place : Position) (kind : ProcedureKind) (name : String)
      (params : Option Parameters) (body : Body)
  | constructor (place : Position) (isConst : Bool) (name : String) (params : Parameters)
      (initializers : List Initializer) (body : Body)

structure Member where
  place : Position
  isStatic : Bool
  isExternal : Bool
  shape : MemberShape

structure ClassDecl where
  place : Position
  name : String
  super : String
  members : List Member

inductive Declaration
  | classDecl (decl : ClassDecl)
  | member (decl : Member)

structure Program where
  place : Position
  name : String
  declarations : List Declaration

end Flowgraph.Surface
