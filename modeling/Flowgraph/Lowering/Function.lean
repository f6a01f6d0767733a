import Flowgraph.Lowering.Statement
import Flowgraph.Scoping.Defaults
import Flowgraph.Graph.Basic

/-! # Lowering functions

Members are lowered from their bodies, accessors and tear-offs from what they
stand for. The result is a graph, or the failure that stopped the work.
-/

namespace Flowgraph.Lowering

open Constant (EvalM Stop Store Value)
open Flowgraph.Graph (Fragment)
open Scoping (Analysis Layout Variable)
open Symbols (FunctionInfo Table)
open Flowgraph.Tree (MemberRef)

def functionPlace (f : FunctionInfo) : Position :=
  match f.body, f.member with
  | some body, _ => body.place
  | none, some m => m.place
  | none, none => .unknown

/-! ## Constructors -/

def loadReceiver : LowerM Fragment := do loadVariable (← required (← read).this)

def initializeField (field : Nat) (value : Tree.Expr) : LowerM Fragment := do
  let info := (← table).field field
  if info.isStatic then inconsistent (info.qualified ++ " is not an instance field")
  inOrder [loadReceiver, lowerExpr value, storeField (.field field)]

def delegate (place : Position) (target : Nat) (args : Tree.Arguments) : LowerM Fragment := do
  let f := (← table).function target
  if f.kind ≠ .constructor then
    malformed place (f.qualified ++ " is not a generative constructor")
  checkArguments place target args
  inOrder [loadReceiver, pushArgument, lowerArguments args,
    staticCall target (args.count + 1) args.names, drop]

def runInitializer (c : Symbols.ClassInfo) : Tree.Initializer → LowerM Fragment
  | .field _ name value => do
    let field ← query (·.resolveField ⟨c.name, name⟩)
    initializeField field value
  | .superCall place target args => do
    match c.super with
    | none => malformed place (c.name ++ " has no superclass")
    | some super =>
      let id ← query (·.resolveConstructor ⟨super, target.name⟩)
      delegate place id args
  | .redirect place target args => do
    let id ← query (·.resolveConstructor ⟨c.name, target.name⟩)
    delegate place id args

def fieldInitializers (c : Symbols.ClassInfo) : List (LowerM Fragment) :=
  ((c.decl.map (·.fields)).getD []).filterMap fun f =>
    if f.isStatic then none
    else f.initializer.map fun value => do
      let field ← query (·.resolveField ⟨c.name, f.name⟩)
      initializeField field value

/-- The superclass whose unnamed constructor runs without being named. -/
def implicitSuper (t : Table) (c : Symbols.ClassInfo) : Option String :=
  c.super.filter fun super =>
    (((t.class? super).bind (·.decl)).map (·.constructors)).any fun cs => cs.any (·.name = "")

/-- What runs before the body of a constructor. One that redirects leaves the
fields and the superclass to its target. -/
def constructorCode (owner : String) (ctor : Tree.Constructor) : LowerM Fragment := do
  let t ← table
  let c ← required (t.class? owner)
  let callsSuper := ctor.initializers.any fun | .superCall .. => true | _ => false
  let fields := if ctor.isRedirecting then [] else fieldInitializers c
  let super := if ctor.isRedirecting || callsSuper then [] else
    (implicitSuper t c).toList.map fun super => do
      let id ← query (·.resolveConstructor ⟨super, ""⟩)
      delegate ctor.place id {}
  inOrder (fields ++ ctor.initializers.map (runInitializer c) ++ super)

/-! ## Members and closures -/

def prologue (node : Nat) (place : Position) (closure : Option Variable) : LowerM Fragment := do
  let env ← read
  let check ← checkStackOverflow
  let f ← match closure with
    | none => pure check
    | some closure =>
      if env.layout.entryLevel < 0 then pure check
      else do
        let f ← chain check
          [loadLocal closure, loadField .closureFrame, storeFrameVariable]
        setFrame env.layout.entryLevel
        pure f
  let params := (env.layout.this.toList ++ env.layout.parameters).map env.analysis.var
  chain f [enterScope node place, copyParameters params]

def bodyCode (body : Option Tree.Stmt) : LowerM Fragment := do
  let f ← lowerOptionStmt [] body
  if f.isOpen then chain f [marked (.giveBack none) nullConstant, giveBack] else return f

def memberCode (info : FunctionInfo) (body : Tree.Function) : LowerM Fragment :=
  inOrder <| [prologue body.id body.place none] ++
    (info.constructor?.map fun ctor => do
      constructorCode (← required info.owner) ctor).toList ++ [bodyCode body.body]

def closureCode (body : Tree.Function) : LowerM Fragment :=
  inOrder [prologue body.id body.place (some { name := ":closure", slot := -1 }),
    bodyCode body.body]

/-! ## Implicit functions -/

def bareAnalysis (name : String) : Analysis :=
  { vars := #[{ name := ":expr_temp" }, { name := ":current_context" }]
    layouts := #[{ node := none, name, scope := 0, parent := none, depth := 0,
                   expressionTemp := 0, currentContext := 1, entryLevel := -1 }] }

def getterCode (t : Table) (field : Nat) : LowerM Fragment :=
  if (t.field field).isStatic then inOrder [staticFieldValue field, giveBack]
  else inOrder [loadLocal { name := "this" }, loadField (.field field), giveBack]

def setterCode (t : Table) (field : Nat) : LowerM Fragment :=
  if (t.field field).isStatic then
    inOrder [loadLocal { name := "value" }, storeStaticField field, nullConstant, giveBack]
  else
    inOrder [loadLocal { name := "this" }, loadLocal { name := "value", slot := 1 },
      storeField (.field field), nullConstant, giveBack]

/-- The closure of a tear-off hands its parameters on to the target. A manifest
may declare fewer than no parameters, for which no call exists. -/
def forwardingCode (info : FunctionInfo) (target : Nat) : LowerM Fragment := do
  let count := info.positional + info.named.length
  if count < 0 then throw .crashed
  let names := (List.range info.positional.toNat).map (fun i => ":p" ++ toString i) ++ info.named
  inOrder <| [checkStackOverflow] ++
    (names.zipIdx.flatMap fun (name, i) => [loadLocal { name, slot := i }, pushArgument]) ++
    [staticCall target count.toNat info.named, giveBack]

def initializerCode (field : Tree.Field) (value : Tree.Expr) : LowerM Fragment :=
  inOrder [checkStackOverflow, enterScope field.id field.place, lowerExpr value, giveBack]

/-! ## Plans -/

/-- How a function is lowered: the analysis it is lowered under, the defaults of
its parameters, and its code. -/
structure Plan where
  analysis : Analysis
  layout : Layout
  this : Option Variable := none
  defaults : List Value := []
  code : LowerM Fragment

def Plan.bare (name : String) (code : LowerM Fragment) : Plan :=
  let analysis := bareAnalysis name
  { analysis, layout := analysis.member, code }

def failed {α : Type} (kind : FailureKind) (place : Position) (message : String) : EvalM α :=
  Constant.fail kind place message

def accessorField (info : FunctionInfo) : EvalM Nat :=
  match info.field with
  | some field => pure field
  | none => failed .malformed (functionPlace info) (info.qualified ++ " has no backing field")

def planMember (info : FunctionInfo) : EvalM Plan := do
  match info.body, info.member with
  | some _, some member =>
    let analysis ← (Scoping.analyze member).withDefaults
    let layout := analysis.member
    let body := match member with
      | .procedure _ p => p.function
      | .constructor _ c => some c.function
      | .field .. => none
    match body with
    | none => throw .crashed
    | some body =>
      return { analysis, layout, this := layout.this.map analysis.var,
               defaults := layout.defaults, code := memberCode info body }
  | _, _ => failed .malformed (functionPlace info) (info.qualified ++ " has no body")

/-- A closure is lowered under the analysis of the member around it, so that both
agree on the frames. -/
def planClosure (t : Table) (id : Nat) : EvalM Plan := do
  let info := t.function id
  let outer := t.function (t.outermost id)
  match outer.member with
  | none =>
    failed .malformed (functionPlace info)
      ("closure " ++ info.qualified ++ " has no enclosing member")
  | some member =>
    let analysis ← (Scoping.analyze member).withDefaults
    match info.body.bind fun body => (analysis.layoutOf body.id).map fun i => (body, i) with
    | none =>
      failed .malformed (functionPlace info)
        ("closure " ++ info.qualified ++ " is not nested in " ++ outer.qualified)
    | some (body, i) =>
      let layout := analysis.layout i
      return { analysis, layout, this := analysis.member.this.map analysis.var,
               defaults := layout.defaults, code := closureCode body }

def planTearOff (t : Table) (info : FunctionInfo) : EvalM Plan := do
  match info.target with
  | none =>
    failed .malformed (functionPlace info)
      ("implicit closure " ++ info.qualified ++ " has no target")
  | some target =>
    let callee := t.function target
    let defaults ← match callee.body, callee.member with
      | some _, some member => do
        let analysis ← (Scoping.analyze member).withDefaults
        pure analysis.member.defaults
      | _, _ => pure []
    return { Plan.bare info.name (forwardingCode info target) with defaults }

def planInitializer (t : Table) (info : FunctionInfo) : EvalM Plan := do
  let id ← accessorField info
  let field := t.field id
  match field.decl, field.initializer with
  | some decl, some value =>
    if field.isConst then
      return .bare info.name do
        inOrder [do constant (← evaluating (Constant.foldField id)), giveBack]
    let owner := (field.owner.bind t.class?).bind (·.decl)
    let analysis ← (Scoping.analyze (.field owner decl)).withDefaults
    return { analysis, layout := analysis.member, code := initializerCode decl value }
  | _, _ =>
    failed .malformed (functionPlace info) (field.qualified ++ " has no initializer")

def plan (t : Table) (id : Nat) : EvalM Plan := do
  let info := t.function id
  if info.isExternal then
    failed .malformed (functionPlace info)
      ("external function '" ++ info.qualified ++ "' has no body")
  match info.kind with
  | .implicitGetter => do
    let field ← accessorField info
    return .bare info.name (getterCode t field)
  | .implicitSetter => do
    let field ← accessorField info
    return .bare info.name (setterCode t field)
  | .staticInitializer => planInitializer t info
  | .closure => planClosure t id
  | .implicitClosure => planTearOff t info
  | .regular | .getter | .setter | .factory | .constructor => planMember info
  | .other =>
    failed .unsupported (functionPlace info)
      ("cannot lower " ++ info.kind.text ++ " '" ++ info.qualified ++ "'")

end Flowgraph.Lowering
