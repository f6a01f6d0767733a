import Flowgraph.Tree.Printer

/-! # Walking trees

All nodes of a tree in evaluation order, each with its depth. Absent parts and
argument lists are no nodes of their own.
-/

namespace Flowgraph.Tree

inductive Node
  | library (l : Library)
  | classDecl (c : ClassDecl)
  | field (f : Field)
  | procedure (p : Procedure)
  | constructor (c : Constructor)
  | initializer (i : Initializer)
  | function (f : Function)
  | expr (e : Expr)
  | declaration (d : Declaration)
  | stmt (s : Stmt)
  | switchCase (c : SwitchCase)
  | catchClause (c : CatchClause)

def Expr.kind : Expr → String
  | absent => "Unknown"
  | invalid .. => "InvalidExpression"
  | null .. => "NullLiteral"
  | bool .. => "BoolLiteral"
  | int .. => "IntLiteral"
  | double .. => "DoubleLiteral"
  | string .. => "StringLiteral"
  | symbol .. => "SymbolLiteral"
  | typeLit .. => "TypeLiteral"
  | this .. => "ThisExpression"
  | get .. => "VariableGet"
  | set .. => "VariableSet"
  | staticGet .. => "StaticGet"
  | staticSet .. => "StaticSet"
  | propertyGet .. => "PropertyGet"
  | propertySet .. => "PropertySet"
  | directGet .. => "DirectPropertyGet"
  | directSet .. => "DirectPropertySet"
  | staticCall .. => "StaticInvocation"
  | methodCall .. => "MethodInvocation"
  | construct .. => "ConstructorInvocation"
  | isType .. => "IsExpression"
  | asType .. => "AsExpression"
  | conditional .. => "ConditionalExpression"
  | logical .. => "LogicalExpression"
  | not .. => "Not"
  | concat .. => "StringConcatenation"
  | list .. => "ListLiteral"
  | map .. => "MapLiteral"
  | function .. => "FunctionExpression"
  | letIn .. => "Let"
  | throw .. => "Throw"
  | rethrow .. => "Rethrow"

def Stmt.kind : Stmt → String
  | absent => "Unknown"
  | invalid .. => "InvalidStatement"
  | empty .. => "EmptyStatement"
  | block .. => "Block"
  | expr .. => "ExpressionStatement"
  | declare .. => "VariableDeclaration"
  | function .. => "FunctionDeclaration"
  | branch .. => "IfStatement"
  | whileDo .. => "WhileStatement"
  | doWhile .. => "DoStatement"
  | forLoop .. => "ForStatement"
  | forIn .. => "ForInStatement"
  | labeled .. => "LabeledStatement"
  | breakOut .. => "BreakStatement"
  | switch .. => "SwitchStatement"
  | continueCase .. => "ContinueSwitchStatement"
  | giveBack .. => "ReturnStatement"
  | tryCatch .. => "TryCatch"
  | tryFinally .. => "TryFinally"
  | assert .. => "AssertStatement"
  | yield .. => "YieldStatement"

def Initializer.kind : Initializer → String
  | field .. => "FieldInitializer"
  | superCall .. => "SuperInitializer"
  | redirect .. => "RedirectingInitializer"

namespace Node

def kind : Node → String
  | library _ => "Library"
  | classDecl _ => "Class"
  | field _ => "Field"
  | procedure _ => "Procedure"
  | constructor _ => "Constructor"
  | initializer i => i.kind
  | function _ => "FunctionNode"
  | expr e => e.kind
  | declaration _ => "VariableDeclaration"
  | stmt s => s.kind
  | switchCase _ => "SwitchCase"
  | catchClause _ => "Catch"

def place : Node → Position
  | library l => l.place
  | classDecl c => c.place
  | field f => f.place
  | procedure p => p.place
  | constructor c => c.place
  | initializer i => i.place
  | function f => f.place
  | expr e => e.place
  | declaration d => d.place
  | stmt s => s.place
  | switchCase c => c.place
  | catchClause c => c.place

end Node

abbrev Visit := Nat × Node

mutual

def Expr.walk (depth : Nat) : Expr → List Visit
  | .absent => []
  | e@(.set _ _ value) | e@(.staticSet _ _ value) | e@(.throw _ value) =>
    (depth, .expr e) :: value.walk (depth + 1)
  | e@(.propertyGet _ receiver _) | e@(.directGet _ receiver _) =>
    (depth, .expr e) :: receiver.walk (depth + 1)
  | e@(.propertySet _ receiver _ value) | e@(.directSet _ receiver _ value) =>
    (depth, .expr e) :: receiver.walk (depth + 1) ++ value.walk (depth + 1)
  | e@(.staticCall _ _ args _) | e@(.construct _ _ args _) =>
    (depth, .expr e) :: args.walk (depth + 1)
  | e@(.methodCall _ receiver _ args) =>
    (depth, .expr e) :: receiver.walk (depth + 1) ++ args.walk (depth + 1)
  | e@(.isType _ operand _) | e@(.asType _ operand _) | e@(.not _ operand) =>
    (depth, .expr e) :: operand.walk (depth + 1)
  | e@(.conditional _ condition yes no) =>
    (depth, .expr e) :: condition.walk (depth + 1) ++ yes.walk (depth + 1) ++ no.walk (depth + 1)
  | e@(.logical _ _ left right) =>
    (depth, .expr e) :: left.walk (depth + 1) ++ right.walk (depth + 1)
  | e@(.concat _ parts) => (depth, .expr e) :: walkExprs (depth + 1) parts
  | e@(.list _ elements _) => (depth, .expr e) :: walkExprs (depth + 1) elements
  | e@(.map _ entries _) => (depth, .expr e) :: walkEntries (depth + 1) entries
  | e@(.function _ body) => (depth, .expr e) :: body.walk (depth + 1)
  | e@(.letIn _ decl body) =>
    (depth, .expr e) :: decl.walk (depth + 1) ++ body.walk (depth + 1)
  | e => [(depth, .expr e)]

def walkExprs (depth : Nat) : List Expr → List Visit
  | [] => []
  | e :: es => e.walk depth ++ walkExprs depth es

def walkOption (depth : Nat) : Option Expr → List Visit
  | none => []
  | some e => e.walk depth

def walkEntries (depth : Nat) : List MapEntry → List Visit
  | [] => []
  | ⟨key, value⟩ :: rest => key.walk depth ++ value.walk depth ++ walkEntries depth rest

def walkNamed (depth : Nat) : List NamedArgument → List Visit
  | [] => []
  | ⟨_, value⟩ :: rest => value.walk depth ++ walkNamed depth rest

def Arguments.walk (depth : Nat) : Arguments → List Visit
  | ⟨positional, named⟩ => walkExprs depth positional ++ walkNamed depth named

def Declaration.walk (depth : Nat) : Declaration → List Visit
  | d@⟨_, _, _, initializer, _, _⟩ => (depth, .declaration d) :: walkOption (depth + 1) initializer

def walkDeclarations (depth : Nat) : List Declaration → List Visit
  | [] => []
  | d :: ds => d.walk depth ++ walkDeclarations depth ds

def walkBinding (depth : Nat) : Option Declaration → List Visit
  | none => []
  | some d => d.walk depth

def Function.walk (depth : Nat) : Function → List Visit
  | f@⟨_, _, positional, _, named, body⟩ =>
    (depth, .function f) :: walkDeclarations (depth + 1) positional ++
      walkDeclarations (depth + 1) named ++ walkBody (depth + 1) body

def walkBody (depth : Nat) : Option Stmt → List Visit
  | none => []
  | some s => s.walk depth

def Stmt.walk (depth : Nat) : Stmt → List Visit
  | .absent => []
  | s@(.block _ _ statements) => (depth, .stmt s) :: walkStmts (depth + 1) statements
  | s@(.expr _ value) | s@(.yield _ value) => (depth, .stmt s) :: value.walk (depth + 1)
  | .declare decl => decl.walk depth
  | s@(.function _ decl body) =>
    (depth, .stmt s) :: decl.walk (depth + 1) ++ body.walk (depth + 1)
  | s@(.branch _ condition yes no) =>
    (depth, .stmt s) :: condition.walk (depth + 1) ++ yes.walk (depth + 1) ++
      walkBody (depth + 1) no
  | s@(.whileDo _ condition body) =>
    (depth, .stmt s) :: condition.walk (depth + 1) ++ body.walk (depth + 1)
  | s@(.doWhile _ body condition) =>
    (depth, .stmt s) :: body.walk (depth + 1) ++ condition.walk (depth + 1)
  | s@(.forLoop _ _ vars condition updates body) =>
    (depth, .stmt s) :: walkDeclarations (depth + 1) vars ++
      walkOption (depth + 1) condition ++ walkExprs (depth + 1) updates ++ body.walk (depth + 1)
  | s@(.forIn _ _ decl iterable body) =>
    (depth, .stmt s) :: iterable.walk (depth + 1) ++ decl.walk (depth + 1) ++
      body.walk (depth + 1)
  | s@(.labeled _ _ _ body) => (depth, .stmt s) :: body.walk (depth + 1)
  | s@(.switch _ subject cases) =>
    (depth, .stmt s) :: subject.walk (depth + 1) ++ walkCases (depth + 1) cases
  | s@(.giveBack _ value) => (depth, .stmt s) :: walkOption (depth + 1) value
  | s@(.tryCatch _ body catches) =>
    (depth, .stmt s) :: body.walk (depth + 1) ++ walkCatches (depth + 1) catches
  | s@(.tryFinally _ body finalizer) =>
    (depth, .stmt s) :: body.walk (depth + 1) ++ finalizer.walk (depth + 1)
  | s@(.assert _ condition message) =>
    (depth, .stmt s) :: condition.walk (depth + 1) ++ walkOption (depth + 1) message
  | s => [(depth, .stmt s)]

def walkStmts (depth : Nat) : List Stmt → List Visit
  | [] => []
  | s :: rest => s.walk depth ++ walkStmts depth rest

def walkCases (depth : Nat) : List SwitchCase → List Visit
  | [] => []
  | c@⟨_, _, _, tests, _, body⟩ :: rest =>
    (depth, .switchCase c) :: walkExprs (depth + 1) tests ++ body.walk (depth + 1) ++
      walkCases depth rest

def walkCatches (depth : Nat) : List CatchClause → List Visit
  | [] => []
  | c@⟨_, _, _, exception, stackTrace, body⟩ :: rest =>
    (depth, .catchClause c) :: walkBinding (depth + 1) exception ++
      walkBinding (depth + 1) stackTrace ++ body.walk (depth + 1) ++ walkCatches depth rest

end

def Initializer.walk (depth : Nat) (i : Initializer) : List Visit :=
  (depth, .initializer i) :: match i with
    | field _ _ value => value.walk (depth + 1)
    | superCall _ _ args | redirect _ _ args => args.walk (depth + 1)

def Field.walk (depth : Nat) (f : Field) : List Visit :=
  (depth, .field f) :: walkOption (depth + 1) f.initializer

def Procedure.walk (depth : Nat) (p : Procedure) : List Visit :=
  (depth, .procedure p) :: match p.function with
    | none => []
    | some f => f.walk (depth + 1)

def Constructor.walk (depth : Nat) (c : Constructor) : List Visit :=
  (depth, .constructor c) :: c.function.walk (depth + 1) ++
    c.initializers.flatMap (Initializer.walk (depth + 1))

def ClassDecl.walk (depth : Nat) (c : ClassDecl) : List Visit :=
  (depth, .classDecl c) :: c.fields.flatMap (Field.walk (depth + 1)) ++
    c.constructors.flatMap (Constructor.walk (depth + 1)) ++
    c.procedures.flatMap (Procedure.walk (depth + 1))

def Library.walk (l : Library) : List Visit :=
  (0, .library l) :: l.fields.flatMap (Field.walk 1) ++ l.procedures.flatMap (Procedure.walk 1) ++
    l.classes.flatMap (ClassDecl.walk 1)

end Flowgraph.Tree
