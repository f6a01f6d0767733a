import Flowgraph.Constant.Operators
import Flowgraph.Constant.Pool
import Flowgraph.Memo.Basic
import Flowgraph.Symbols.Lookup
import Flowgraph.Symbols.Core
import Flowgraph.Tree.Walk

/-! # Constant evaluation

Folds expressions into values of the pool. Constant fields are evaluated once,
and one that needs its own value fails. Constructors run on the receiver they
build. Evaluation is bounded by a depth, since constructors can call each other
forever; running out of it is told apart from failing.
-/

namespace Flowgraph.Constant

open Symbols (Table)

inductive Stop
  | failed (f : Failure)
  | crashed
  | exhausted
  deriving DecidableEq, Repr

/-- What all work on a program shares. -/
structure Store where
  table : Table := {}
  pool : Pool := {}
  slots : Memo.Slots Nat Failure Value := []

abbrev EvalM := ExceptT Stop (StateM Store)

def fail {α : Type} (kind : FailureKind) (place : Position) (message : String) : EvalM α :=
  throw (.failed (.of kind place message))

def notConstant {α : Type} (place : Position) (message : String) : EvalM α :=
  fail .notConstant place message

def invalidConstructor {α : Type} (place : Position) (message : String) : EvalM α :=
  fail .constantConstructor place message

def query {α : Type} (q : Table → Except Failure α) : EvalM α := do
  match q (← get).table with
  | .ok a => return a
  | .error f => throw (.failed f)

/-! ## Interning -/

def intern (make : Nat → Value) : EvalM Value :=
  modifyGet fun s =>
    let (v, pool) := s.pool.intern make
    (v, { s with pool })

def Result.intern : Result → EvalM Value
  | bool b => Constant.intern (.bool · b)
  | int n => Constant.intern (.int · n)
  | double d => Constant.intern (.double · d)
  | string s => Constant.intern (.string · s)

/-! ## Fields and constructors -/

/-- The values of the parameters in sight, by the numbers of their declarations. -/
abbrev Env := List (Nat × Value)

def fieldSlots : Memo.Place Store Nat Failure Value :=
  { slots := Store.slots, update := fun f s => { s with slots := f s.slots } }

/-- A failure belongs to the first field that remembers it. -/
def remembered (field : Nat) (f : Failure) : Failure :=
  { f with origin := some (f.origin.getD field) }

def cyclicField (t : Table) (id : Nat) : Failure :=
  let field := t.field id
  { Failure.of .notConstant field.place
      (field.qualified ++ ": initializer depends on its own value") with
    code := .cyclicConstant }

/-- The value of a field that `compute` makes on first use. -/
def memoizeField (id : Nat) (compute : EvalM Value) : EvalM Value := do
  let cyclic := cyclicField (← get).table id
  let ending ← liftM <| Memo.memoize fieldSlots id cyclic do
    match ← compute.run with
    | .ok v => return .value v
    | .error (.failed f) => return .error (remembered id f)
    | .error stop => return .broken stop
  match ending with
  | .value v => return v
  | .error f => throw (.failed f)
  | .broken stop => throw stop

def noInitializer (t : Table) (id : Nat) : Failure :=
  let field := t.field id
  .of .notConstant field.place ("constant field '" ++ field.qualified ++ "' has no initializer")

def isEmptyBody : Tree.Stmt → Bool
  | .absent | .empty _ => true
  | .block _ _ statements => allEmpty statements
  | _ => false
where
  allEmpty : List Tree.Stmt → Bool
    | [] => true
    | s :: rest => isEmptyBody s && allEmpty rest

/-- The evaluated arguments of a call. The last value of a name counts. -/
structure Actuals where
  positional : List Value := []
  named : List (String × Value) := []

def Actuals.addNamed (a : Actuals) (name : String) (v : Value) : Actuals :=
  { a with named := a.named.filter (·.1 ≠ name) ++ [(name, v)] }

/-- The receiver of a constructor: one value for each field that was written. -/
abbrev Receiver := List (Option Value)

def bindParameter (ofDefault : Tree.Expr → EvalM Value) (argument : Option Value)
    (param : Tree.Declaration) : EvalM (Nat × Value) := do
  match argument, param.initializer with
  | some v, _ => return (param.id, v)
  | none, none => return (param.id, ← intern .null)
  | none, some default => return (param.id, ← ofDefault default)

def dispatch (place : Position) (receiver : Value) (name : String) (args : List Value) :
    EvalM Value := do
  let unknown : EvalM Value :=
    notConstant place ("'" ++ name ++ "' on " ++ receiver.kind ++ " is not a constant operation")
  match args with
  | [] => match unaryOp receiver name with
    | some r => r.intern
    | none => unknown
  | [arg] =>
    if name = Symbols.equalsOperator then (Result.bool (equals receiver arg)).intern
    else match binaryOp receiver name arg with
      | .ok (some r) => r.intern
      | .ok none => unknown
      | .error e => notConstant place e.message
  | _ => unknown

section

-- `ask` gives the value of a constant field.
variable (ask : Nat → EvalM Value)

mutual

def evaluate : Nat → Env → Tree.Expr → EvalM Value
  | 0, _, _ => throw .exhausted
  | depth + 1, env, e => match e with
    | .absent => throw .crashed
    | .null _ => intern .null
    | .bool _ b => intern (.bool · b)
    | .int _ n => intern (.int · n)
    | .double _ f => intern (.double · (.ofFloat f))
    | .string _ s => intern (.string · s)
    | .symbol _ name => intern (.symbol · name)
    | .typeLit _ className => do
      let _ ← query (·.resolveClass className)
      intern (.typeOf · className)
    | .list _ elements _ => do
      let values ← elements.mapM (evaluate depth env)
      intern (.list · values)
    | .map _ entries _ => do
      let (keys, values) ← entries.foldlM (evaluateEntry depth env) ([], [])
      intern (.map · keys values)
    | .concat _ parts => do
      let texts ← parts.mapM (evaluateText depth env)
      intern (.string · (String.join texts))
    | .get place var => do
      match env.find? (·.1 = var.id) with
      | some (_, v) => return v
      | none => match (← get).table.localConstants.find? (·.1 = var.id) with
        | some (_, value) => evaluate depth env value
        | none => notConstant place ("variable '" ++ var.name ++ "' is not a constant")
    | .staticGet place target => do
      let t := (← get).table
      match t.lookupField target with
      | some id =>
        if (t.field id).isConst then ask id
        else notConstant place ("'" ++ target.render ++ "' is not a constant field")
      | none => notConstant place ("'" ++ target.render ++ "' is not a constant field")
    | .construct place target args _ => do
      let id ← query (·.resolveConstructor target)
      let ctor := (← get).table.function id
      if ctor.kind = .factory then
        invalidConstructor place
          ("factory '" ++ ctor.name ++ "' cannot be invoked in a constant expression")
      let actuals ← evaluateArguments depth env args
      let className := ctor.owner.getD ""
      let size := ((← get).table.instanceFields className).length
      let fields ← runConstructor depth place id (List.replicate size none) actuals
      let fields ← fields.mapM fun v => match v with
        | some v => pure v
        | none => intern .null
      intern (.object · className fields)
    | .staticCall place target args _ => do
      let id ← query (·.resolveFunction target)
      let f := (← get).table.function id
      if f.intrinsic ≠ Symbols.identicalFunction then
        notConstant place ("call to '" ++ f.qualified ++ "' is not a constant expression")
      match ← evaluatePositional depth env place args with
      | [a, b] => (Result.bool (a.id = b.id)).intern
      | _ => notConstant place "identical expects 2 arguments"
    | .methodCall place receiver name args => do
      let receiver ← evaluate depth env receiver
      let args ← evaluatePositional depth env place args
      dispatch place receiver name args
    | .propertyGet place receiver name => do
      let receiver ← evaluate depth env receiver
      match receiver, name with
      | .string _ s, "length" => intern (.int · (Int64.ofNat s.length))
      | _, _ =>
        notConstant place
          ("property '" ++ name ++ "' of " ++ receiver.kind ++ " is not a constant")
    | .not _ operand => do
      let b ← evaluateBool depth env operand
      intern (.bool · !b)
    | .logical _ op left right => match op with
      | .and => do
        if ← evaluateBool depth env left then
          let b ← evaluateBool depth env right
          intern (.bool · b)
        else intern (.bool · false)
      | .or => do
        if ← evaluateBool depth env left then intern (.bool · true)
        else
          let b ← evaluateBool depth env right
          intern (.bool · b)
      | .ifNull => do
        let v ← evaluate depth env left
        if v.isNull then evaluate depth env right else return v
    | .conditional _ condition yes no => do
      if ← evaluateBool depth env condition then evaluate depth env yes
      else evaluate depth env no
    | e => notConstant e.place (e.kind ++ " is not a constant expression")

def evaluateBool : Nat → Env → Tree.Expr → EvalM Bool
  | 0, _, _ => throw .exhausted
  | depth + 1, env, e => do
    match ← evaluate depth env e with
    | .bool _ b => return b
    | _ => notConstant e.place "expected a constant bool"

def evaluateText : Nat → Env → Tree.Expr → EvalM String
  | 0, _, _ => throw .exhausted
  | depth + 1, env, e => do
    match (← evaluate depth env e).text? with
    | some s => return s
    | none => notConstant e.place "only primitive constants can be interpolated"

def evaluateEntry : Nat → Env → List Value × List Value → Tree.MapEntry →
    EvalM (List Value × List Value)
  | 0, _, _, _ => throw .exhausted
  | depth + 1, env, (keys, values), entry => do
    let key ← evaluate depth env entry.key
    let value ← evaluate depth env entry.value
    if keys.any (·.id = key.id) then
      notConstant entry.key.place
        ("duplicate key " ++ key.render (← get).table ++ " in constant map")
    return (keys ++ [key], values ++ [value])

def evaluatePositional : Nat → Env → Position → Tree.Arguments → EvalM (List Value)
  | 0, _, _, _ => throw .exhausted
  | depth + 1, env, place, args => do
    if !args.named.isEmpty then notConstant place "named arguments are not supported here"
    args.positional.mapM (evaluate depth env)

def evaluateArguments : Nat → Env → Tree.Arguments → EvalM Actuals
  | 0, _, _ => throw .exhausted
  | depth + 1, env, args => do
    let positional ← args.positional.mapM (evaluate depth env)
    args.named.foldlM
      (fun (actuals : Actuals) arg => do
        return actuals.addNamed arg.name (← evaluate depth env arg.value)) { positional }

/-- Bind the parameters of a constructor. Defaults see no parameters. -/
def bindParameters : Nat → Position → Nat → Tree.Function → Actuals → EvalM Env
  | 0, _, _, _, _ => throw .exhausted
  | depth + 1, place, id, f, actuals => do
    let name := ((← get).table.function id).name
    let given := actuals.positional.length
    if given < f.required || f.positional.length < given then
      invalidConstructor place ("'" ++ name ++ "' expects " ++ toString f.required ++ " to " ++
        toString f.positional.length ++ " positional arguments, got " ++ toString given)
    let positional ← f.positional.zipIdx.mapM fun entry =>
      bindParameter (evaluate depth []) actuals.positional[entry.2]? entry.1
    let named ← f.named.mapM fun param =>
      bindParameter (evaluate depth []) ((actuals.named.find? (·.1 = param.name)).map (·.2)) param
    let used := f.named.filter fun param => actuals.named.any (·.1 = param.name)
    if used.length ≠ actuals.named.length then
      invalidConstructor place ("'" ++ name ++ "' was called with an unknown named argument")
    return positional ++ named

/-- Run a constructor on a receiver: the initializers of the fields its class
declares, then its initializer list, then the constructor of the superclass
unless the list calls one. -/
def runConstructor : Nat → Position → Nat → Receiver → Actuals → EvalM Receiver
  | 0, _, _, _, _ => throw .exhausted
  | depth + 1, place, id, fields, actuals => do
    let t := (← get).table
    let ctor := t.function id
    let className := ctor.owner.getD ""
    if !ctor.isConst then
      invalidConstructor place ("'" ++ ctor.name ++ "' is not a const constructor")
    match ctor.constructor? with
    | none =>
      if !(t.instanceFields className).isEmpty then
        invalidConstructor place
          ("external constructor '" ++ ctor.name ++ "' cannot be evaluated")
      return fields
    | some decl =>
      if !(decl.function.body.map isEmptyBody).getD true then
        invalidConstructor decl.place ("const constructor '" ++ ctor.name ++ "' has a body")
      let env ← bindParameters depth place id decl.function actuals
      let own := ((t.class? className).map (·.fields)).getD []
      let fields ← own.foldlM
        (fun (fields : Receiver) f => do
          match (t.field f).isStatic, (t.field f).initializer with
          | false, some e => return fields.set (t.field f).offset (some (← evaluate depth [] e))
          | _, _ => return fields) fields
      let fields ← decl.initializers.foldlM (runInitializer depth env className) fields
      if decl.initializers.any fun | .field .. => false | _ => true then return fields
      match (t.class? className).bind (·.super) with
      | none => return fields
      | some super =>
        if ((t.class? super).bind (·.decl)).isNone then return fields
        let target ← query (·.resolveConstructor ⟨super, ""⟩)
        runConstructor depth place target fields {}

def runInitializer : Nat → Env → String → Receiver → Tree.Initializer → EvalM Receiver
  | 0, _, _, _, _ => throw .exhausted
  | depth + 1, env, className, fields, init => match init with
    | .field place name value => do
      let t := (← get).table
      let id ← query (·.resolveField ⟨className, name⟩)
      let field := t.field id
      if field.isStatic || field.owner ≠ some className then
        invalidConstructor place ("'" ++ name ++ "' is not an instance field of " ++ className)
      return fields.set field.offset (some (← evaluate depth env value))
    | .superCall place target args | .redirect place target args => do
      let id ← query (·.resolveConstructor target)
      let actuals ← evaluateArguments depth env args
      runConstructor depth place id fields actuals

end

end

/-- What makes the value of a constant field. Its initializer sees no parameters. -/
def fieldCode (ask : Nat → EvalM Value) (depth id : Nat) : EvalM Value := do
  let t := (← get).table
  match (t.field id).initializer with
  | none => throw (.failed (noInitializer t id))
  | some e => evaluate ask depth [] e

def evaluateField : Nat → Nat → EvalM Value
  | 0, _ => throw .exhausted
  | depth + 1, id => memoizeField id (fieldCode (evaluateField depth) depth id)

/-- Deeper evaluations than any program needs are not attempted. -/
def maxDepth : Nat := 100000

def fold (e : Tree.Expr) : EvalM Value := evaluate (evaluateField maxDepth) maxDepth [] e

def foldField (id : Nat) : EvalM Value := evaluateField maxDepth id

end Flowgraph.Constant
