import Flowgraph.Tree.Printer

/-! # Trees that can be written

A catch clause that binds no exception has no written form, and neither has a
tree that shows one. The defaults of required parameters and the parameters of
getters are not shown, so nothing in them counts.
-/

namespace Flowgraph.Tree

mutual

def Expr.isWritable : Expr → Bool
  | .set _ _ value | .staticSet _ _ value | .throw _ value => value.isWritable
  | .propertyGet _ receiver _ | .directGet _ receiver _ => receiver.isWritable
  | .propertySet _ receiver _ value | .directSet _ receiver _ value =>
    receiver.isWritable && value.isWritable
  | .staticCall _ _ args _ | .construct _ _ args _ => args.isWritable
  | .methodCall _ receiver _ args => receiver.isWritable && args.isWritable
  | .isType _ operand _ | .asType _ operand _ | .not _ operand => operand.isWritable
  | .conditional _ condition yes no =>
    condition.isWritable && yes.isWritable && no.isWritable
  | .logical _ _ left right => left.isWritable && right.isWritable
  | .concat _ parts => allWritable parts
  | .list _ elements _ => allWritable elements
  | .map _ entries _ => writableEntries entries
  | .function _ body => body.isWritable
  | .letIn _ decl body => decl.isWritable && body.isWritable
  | _ => true

def allWritable : List Expr → Bool
  | [] => true
  | e :: es => e.isWritable && allWritable es

def writableOption : Option Expr → Bool
  | none => true
  | some e => e.isWritable

def writableEntries : List MapEntry → Bool
  | [] => true
  | ⟨key, value⟩ :: rest => key.isWritable && value.isWritable && writableEntries rest

def writableNamed : List NamedArgument → Bool
  | [] => true
  | ⟨_, value⟩ :: rest => value.isWritable && writableNamed rest

def Arguments.isWritable : Arguments → Bool
  | ⟨positional, named⟩ => allWritable positional && writableNamed named

def Declaration.isWritable : Declaration → Bool
  | ⟨_, _, _, initializer, _, _⟩ => writableOption initializer

def writableDefaults : Nat → List Declaration → Bool
  | _, [] => true
  | 0, d :: ds => d.isWritable && writableDefaults 0 ds
  | hidden + 1, _ :: ds => writableDefaults hidden ds

def Function.isWritable : Function → Bool
  | ⟨_, _, positional, required, named, body⟩ =>
    writableDefaults required positional && writableDefaults 0 named && writableBody body

def writableBody : Option Stmt → Bool
  | none => true
  | some s => s.isWritable

def Stmt.isWritable : Stmt → Bool
  | .block _ _ statements => writableStmts statements
  | .expr _ value | .yield _ value => value.isWritable
  | .declare decl => decl.isWritable
  | .function _ _ body => body.isWritable
  | .branch _ condition yes no => condition.isWritable && yes.isWritable && writableBody no
  | .whileDo _ condition body | .doWhile _ body condition =>
    condition.isWritable && body.isWritable
  | .forLoop _ _ vars condition updates body =>
    writableDefaults 0 vars && writableOption condition && allWritable updates && body.isWritable
  | .forIn _ _ _ iterable body => iterable.isWritable && body.isWritable
  | .labeled _ _ _ body => body.isWritable
  | .switch _ subject cases => subject.isWritable && writableCases cases
  | .giveBack _ value => writableOption value
  | .tryCatch _ body catches => body.isWritable && writableCatches catches
  | .tryFinally _ body finalizer => body.isWritable && finalizer.isWritable
  | .assert _ condition message => condition.isWritable && writableOption message
  | _ => true

def writableStmts : List Stmt → Bool
  | [] => true
  | s :: rest => s.isWritable && writableStmts rest

def writableCases : List SwitchCase → Bool
  | [] => true
  | ⟨_, _, _, tests, _, body⟩ :: rest =>
    allWritable tests && body.isWritable && writableCases rest

def writableCatches : List CatchClause → Bool
  | [] => true
  | ⟨_, _, _, exception, _, body⟩ :: rest =>
    exception.isSome && body.isWritable && writableCatches rest

end

def Initializer.isWritable : Initializer → Bool
  | field _ _ value => value.isWritable
  | superCall _ _ args | redirect _ _ args => args.isWritable

def Field.isWritable (f : Field) : Bool := writableOption f.initializer

def Procedure.isWritable (p : Procedure) : Bool :=
  match p.function, p.kind with
  | none, _ => true
  | some f, .get => writableBody f.body
  | some f, _ => f.isWritable

def Constructor.isWritable (c : Constructor) : Bool :=
  c.function.isWritable && c.initializers.all Initializer.isWritable

def ClassDecl.isWritable (c : ClassDecl) : Bool :=
  c.fields.all Field.isWritable && c.constructors.all Constructor.isWritable &&
    c.procedures.all Procedure.isWritable

def Library.isWritable (l : Library) : Bool :=
  l.fields.all Field.isWritable && l.procedures.all Procedure.isWritable &&
    l.classes.all ClassDecl.isWritable

def Library.text? (l : Library) : Option String := if l.isWritable then some l.render else none

end Flowgraph.Tree
