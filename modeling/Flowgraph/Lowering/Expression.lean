import Flowgraph.Lowering.Frame

/-! # Lowering expressions

An expression becomes a fragment that leaves one value on the stack. Negations
around a condition are not computed but turn the branch around.
-/

namespace Flowgraph.Lowering

open Constant (Stop)
open Flowgraph.Graph (Fragment)
open Scoping (Variable)
open Symbols (getterName setterName)
open Flowgraph.Tree (Expr MemberRef)

/-- The two ways of lowering an expression. A condition comes with the answer to
whether its value has to be negated. -/
structure Lowered where
  value : LowerM Fragment
  condition : LowerM (Fragment × Bool)

def Lowered.plain (value : LowerM Fragment) : Lowered :=
  ⟨value, do return (← value, false)⟩

def Lowered.negation (place : Position) (operand : Lowered) : Lowered :=
  { value := at_ place (inOrder [operand.value, booleanNegate])
    condition := do
      let (f, negated) ← operand.condition
      return (f, !negated) }

/-! ## Statements -/

/-- Lower a statement. It leaves the stack and the frame as they were. -/
def balanced (place : Position) (kind : String) (m : LowerM Fragment) : LowerM Fragment :=
  at_ place do
    let before ← get
    let f ← m
    let after ← get
    if after.stack.length ≠ before.stack.length then
      let left : Int := after.stack.length - before.stack.length
      malformed place (kind ++ " left " ++ toString left ++ " values on the expression stack")
    if after.frame ≠ before.frame then
      malformed place (kind ++ " changed the frame level from " ++ toString before.frame ++
        " to " ++ toString after.frame)
    return f

def declareVariable (d : Tree.Declaration) (value : LowerM Fragment) : LowerM Fragment :=
  balanced d.place (Tree.Stmt.declare d).kind do
    let v ← lookupVariable d.place d.ref
    let f ← match d.initializer with
      | none => nullConstant
      | some e => if d.isConst then foldedConstant e else value
    chain f [storeVariable v, drop]

/-! ## Calls -/

def pushAll (arguments : List (LowerM Fragment)) : LowerM Fragment :=
  inOrder (arguments.flatMap fun a => [a, pushArgument])

def checkArguments (place : Position) (function : Nat) (args : Tree.Arguments) :
    LowerM Unit := do
  let f := (← table).function function
  let given : Int := args.positional.length
  if given < f.required || f.positional < given then
    malformed place (f.qualified ++ " takes " ++ toString f.required ++ " to " ++
      toString f.positional ++ " positional arguments, got " ++ toString given)
  match args.names.find? fun name => !f.named.contains name with
  | some name => malformed place (f.qualified ++ " has no parameter named '" ++ name ++ "'")
  | none => return

/-- Call a constructor on a new object, or a factory, which receives the type
arguments first. -/
def construct (place : Position) (target : MemberRef) (args : Tree.Arguments)
    (arguments : List (LowerM Fragment)) : LowerM Fragment := do
  let id ← query (·.resolveConstructor target)
  checkArguments place id args
  let f := (← table).function id
  if f.kind = .factory then
    inOrder [nullConstant, pushArgument, pushAll arguments,
      staticCall id (args.count + 1) args.names]
  else
    let object ← allocateObject (f.owner.getD "")
    let instance_ ← makeTemporary
    chain object [loadLocal instance_, pushArgument, pushAll arguments,
      staticCall id (args.count + 1) args.names, drop]

def callStatic (place : Position) (target : MemberRef) (args : Tree.Arguments)
    (positional named : List (LowerM Fragment)) : LowerM Fragment := do
  let id ← query (·.resolveFunction target)
  checkArguments place id args
  let isIdentity := decide (((← table).function id).intrinsic = Symbols.identicalFunction)
  match isIdentity, positional with
  | true, [left, right] => inOrder [left, right, strictCompare false]
  | _, _ => inOrder [pushAll (positional ++ named), staticCall id args.count args.names]

/-! ## Closures -/

def allocateClosure (function : Nat) (frame : LowerM Fragment) : LowerM Fragment := do
  let c ← query (·.resolveClass Symbols.closureClass)
  let f ← allocateObject c.name
  let closure ← makeTemporary
  chain f [loadLocal closure, newConstant (.function · function), storeField .closureFunction,
    loadLocal closure, frame, storeField .closureFrame]

def nestedFunction (body : Tree.Function) (name : String) : LowerM Fragment := do
  let env ← read
  match env.analysis.layoutOf body.id with
  | none => malformed body.place "nested function was not analyzed"
  | some layout =>
    let name := if name = "" then (env.analysis.layout layout).name else name
    let id ← addClosure fun t => t.closureFunction env.function (some body) name
    allocateClosure id do
      if 0 ≤ (← get).frame then loadFrameVariable else nullConstant

def tearOff (place : Position) (target : Nat) : LowerM Fragment := do
  let t ← table
  let f := t.function target
  if f.kind ≠ .regular then
    malformed place ("cannot tear off " ++ f.kind.text ++ " " ++ f.qualified)
  if t.hasReceiver target then
    malformed place ("instance method " ++ f.qualified ++ " torn off without a receiver")
  let id ← addClosure fun t => t.tearOff target
  allocateClosure id nullConstant

/-! ## Fields -/

def staticFieldValue (field : Nat) : LowerM Fragment := do
  let info := (← table).field field
  if info.isConst then constant (← evaluating (Constant.foldField field))
  else
    let initialize_ := if info.initializer.isSome then [perform (.initStaticField field)] else []
    inOrder (initialize_ ++ [define (.loadStaticField field)])

def getStatic (place : Position) (target : MemberRef) : LowerM Fragment := do
  let t ← table
  match t.lookupField target, t.lookupFunction ⟨target.className, getterName target.name⟩,
      t.lookupFunction target with
  | some field, _, _ =>
    if !(t.field field).isStatic then
      malformed place ("instance field " ++ (t.field field).qualified ++
        " read without a receiver")
    staticFieldValue field
  | none, some getter, _ => staticCall getter 0 []
  | none, none, some function => tearOff place function
  | none, none, none => do
    let _ ← query (·.resolveField target)
    return .empty

def setStatic (place : Position) (target : MemberRef) (value : LowerM Fragment) :
    LowerM Fragment := do
  let t ← table
  match t.lookupField target with
  | some field =>
    let info := t.field field
    if !info.isStatic || info.isFinal then malformed place ("cannot assign " ++ info.qualified)
    let f ← value
    let v ← makeTemporary
    chain f [loadLocal v, storeStaticField field]
  | none =>
    let setter ← query (·.resolveFunction ⟨target.className, setterName target.name⟩)
    let f ← value
    let v ← makeTemporary
    chain f [loadLocal v, pushArgument, staticCall setter 1 [], drop]

def instanceField (target : MemberRef) : LowerM (Option Nat) := do
  let t ← table
  return (t.lookupField target).filter fun field => !(t.field field).isStatic

def getDirect (target : MemberRef) (receiver : LowerM Fragment) : LowerM Fragment := do
  let f ← receiver
  match ← instanceField target with
  | some field => chain f [loadField (.field field)]
  | none =>
    let getter ← query (·.resolveFunction ⟨target.className, getterName target.name⟩)
    chain f [pushArgument, staticCall getter 1 []]

/-- Run code above a slot of the stack that receives the value of an assignment. -/
def withResult (code : Variable → List (LowerM Fragment)) : LowerM Fragment := do
  let f ← nullConstant
  let result ← makeTemporary
  chain f (code result)

def setDirect (target : MemberRef) (receiver value : LowerM Fragment) : LowerM Fragment :=
  withResult fun result =>
    [do let f ← receiver
        match ← instanceField target with
        | some field => chain f [value, storeLocal result, storeField (.field field)]
        | none =>
          let setter ← query (·.resolveFunction ⟨target.className, setterName target.name⟩)
          chain f [pushArgument, value, storeLocal result, pushArgument, staticCall setter 2 [],
            drop]]

def setProperty (name : String) (receiver value : LowerM Fragment) : LowerM Fragment :=
  withResult fun result =>
    [receiver, pushArgument, value, storeLocal result, pushArgument,
      instanceCall (setterName name) 2 [], drop]

/-! ## Branching -/

def expressionTemp : LowerM Variable := do helperVariable (← read).layout.expressionTemp

/-- Bring two arms together behind a branch. The value is in the helper variable. -/
def joinArms (head yes no : Fragment) : LowerM Fragment := do
  let join ← makeJoin
  let _ ← chain yes [gotoJoin join]
  let _ ← chain no [gotoJoin join]
  let temp ← expressionTemp
  chain (head.exitingAt join) [loadLocal temp]

def branchOnCondition (condition : LowerM (Fragment × Bool)) : LowerM Branching := do
  let (f, negated) ← condition
  let b ← branchIfTrue negated
  return { b with code := ← append f b.code }

def conditional (condition : LowerM (Fragment × Bool)) (yes no : LowerM Fragment) :
    LowerM Fragment := do
  let temp ← expressionTemp
  let b ← branchOnCondition condition
  let yes ← startingAt b.yes [yes, storeLocal temp, drop]
  let no ← startingAt b.no [no, storeLocal temp, drop]
  joinArms b.code yes no

/-- Short-circuit evaluation. The right operand becomes a bool by comparison with true. -/
def logical (isOr : Bool) (left right : LowerM (Fragment × Bool)) : LowerM Fragment := do
  let temp ← expressionTemp
  let b ← branchOnCondition left
  let (rightEntry, shortEntry) := if isOr then (b.no, b.yes) else (b.yes, b.no)
  let (f, negated) ← right
  let right ← startingAt rightEntry
    [pure f, boolConstant true, strictCompare negated, storeLocal temp, drop]
  let short ← startingAt shortEntry [boolConstant isOr, storeLocal temp, drop]
  joinArms b.code right short

def ifNull (left right : LowerM Fragment) : LowerM Fragment := do
  let temp ← expressionTemp
  let f ← inOrder [left, storeLocal temp]
  let b ← branchIfNull
  let f ← append f b.code
  let right ← startingAt b.yes [right, storeLocal temp, drop]
  joinArms f right (.single b.no)

/-! ## Aggregates -/

def buildArray (elements : List (LowerM Fragment)) : LowerM Fragment := do
  let f ← inOrder [intConstant elements.length, createArray]
  let array ← makeTemporary
  chain f (elements.zipIdx.flatMap fun (element, i) =>
    [loadLocal array, intConstant i, element, storeIndexed])

def fromLiteral (place : Position) (className : String) (elements : List (LowerM Fragment)) :
    LowerM Fragment := do
  let id ← query (·.resolveConstructor ⟨className, Symbols.literalFactory⟩)
  let f := (← table).function id
  if f.kind ≠ .factory then malformed place (f.qualified ++ " is not a factory")
  inOrder [nullConstant, pushArgument, buildArray elements, pushArgument, staticCall id 2 []]

def interpolate (parts : List (LowerM Fragment)) : LowerM Fragment := do
  match parts with
  | [part] =>
    let id ← query (·.resolveFunction ⟨Symbols.stringClass, Symbols.interpolateOneFunction⟩)
    inOrder [part, pushArgument, staticCall id 1 []]
  | parts =>
    let id ← query (·.resolveFunction ⟨Symbols.stringClass, Symbols.interpolateFunction⟩)
    inOrder [buildArray parts, pushArgument, staticCall id 1 []]

/-! ## Expressions -/

def rethrowCaught (place : Position) : LowerM Fragment := do
  match (← get).caught with
  | [] => malformed place "rethrow outside of a catch clause"
  | c :: _ =>
    inOrder [loadLocal c.exception, pushArgument, loadLocal c.stackTrace, pushArgument,
      rethrowException c.tryIndex]

def loadThis (place : Position) : LowerM Fragment := do
  match (← read).this with
  | none => malformed place "'this' used in a function without a receiver"
  | some v => loadVariable v

mutual

def lower : Expr → Lowered
  | .absent => .plain (inconsistent "missing expression")
  | .invalid place message => .plain (malformed place ("invalid expression: " ++ message))
  | e@(.null place) | e@(.bool place _) | e@(.int place _) | e@(.double place _)
  | e@(.string place _) | e@(.symbol place _) | e@(.typeLit place _) =>
    .plain (at_ place (foldedConstant e))
  | .this place => .plain (at_ place (loadThis place))
  | .get place var => .plain <| at_ place do loadVariable (← lookupVariable place var)
  | .set place var value => .plain <| at_ place <|
    inOrder [(lower value).value, do storeVariable (← lookupVariable place var)]
  | .staticGet place target => .plain (at_ place (getStatic place target))
  | .staticSet place target value =>
    .plain (at_ place (setStatic place target (lower value).value))
  | .propertyGet place receiver name => .plain <| at_ place <|
    inOrder [(lower receiver).value, pushArgument, instanceCall (getterName name) 1 []]
  | .propertySet place receiver name value =>
    .plain (at_ place (setProperty name (lower receiver).value (lower value).value))
  | .directGet place receiver target =>
    .plain (at_ place (getDirect target (lower receiver).value))
  | .directSet place receiver target value =>
    .plain (at_ place (setDirect target (lower receiver).value (lower value).value))
  | e@(.staticCall place target args@⟨positional, named⟩ isConst) => .plain <| at_ place <|
    if isConst then foldedConstant e
    else callStatic place target args (lowerAll positional) (lowerNamed named)
  | .methodCall place receiver name args@⟨positional, named⟩ => .plain <| at_ place <|
    inOrder [(lower receiver).value, pushArgument,
      pushAll (lowerAll positional ++ lowerNamed named),
      instanceCall name (args.count + 1) args.names]
  | e@(.construct place target args@⟨positional, named⟩ isConst) => .plain <| at_ place <|
    if isConst then foldedConstant e
    else construct place target args (lowerAll positional ++ lowerNamed named)
  | .isType place operand className => .plain <| at_ place <|
    inOrder [(lower operand).value, pushArgument, typeConstant className, pushArgument,
      boolConstant false, pushArgument, instanceCall Symbols.instanceOfFunction 3 []]
  | .asType place operand className => .plain <| at_ place <|
    inOrder [(lower operand).value, pushArgument, typeConstant className, pushArgument,
      instanceCall Symbols.asFunction 2 []]
  | .conditional place condition yes no => .plain <| at_ place <|
    conditional (lower condition).condition (lower yes).value (lower no).value
  | .logical place .ifNull left right =>
    .plain (at_ place (ifNull (lower left).value (lower right).value))
  | .logical place op left right =>
    .plain (at_ place (logical (op = .or) (lower left).condition (lower right).condition))
  | .not place operand => .negation place (lower operand)
  | .concat place parts => .plain (at_ place (interpolate (lowerAll parts)))
  | e@(.list place elements isConst) => .plain <| at_ place <|
    if isConst then foldedConstant e
    else fromLiteral place Symbols.listClass (lowerAll elements)
  | e@(.map place entries isConst) => .plain <| at_ place <|
    if isConst then foldedConstant e
    else fromLiteral place Symbols.mapClass (lowerEntries entries)
  | .function place body => .plain (at_ place (nestedFunction body ""))
  | .letIn place d@⟨_, _, _, initializer, _, _⟩ body => .plain <| at_ place <|
    inOrder [declareVariable d (lowerOption initializer), (lower body).value]
  | .throw place value =>
    .plain (at_ place (inOrder [(lower value).value, throwException]))
  | .rethrow place => .plain (at_ place (rethrowCaught place))

def lowerAll : List Expr → List (LowerM Fragment)
  | [] => []
  | e :: rest => (lower e).value :: lowerAll rest

def lowerNamed : List Tree.NamedArgument → List (LowerM Fragment)
  | [] => []
  | ⟨_, value⟩ :: rest => (lower value).value :: lowerNamed rest

def lowerEntries : List Tree.MapEntry → List (LowerM Fragment)
  | [] => []
  | ⟨key, value⟩ :: rest => (lower key).value :: (lower value).value :: lowerEntries rest

def lowerOption : Option Expr → LowerM Fragment
  | none => nullConstant
  | some e => (lower e).value

end

def lowerExpr (e : Expr) : LowerM Fragment := (lower e).value

def lowerCondition (e : Expr) : LowerM (Fragment × Bool) := (lower e).condition

def lowerArguments (args : Tree.Arguments) : LowerM Fragment :=
  pushAll (lowerAll args.positional ++ lowerNamed args.named)

def lowerDeclaration (d : Tree.Declaration) : LowerM Fragment :=
  marked (.declare d) (declareVariable d (lowerOption d.initializer))

end Flowgraph.Lowering
