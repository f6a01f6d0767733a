import Flowgraph.Scoping.State

/-! # Scope analysis

Walks a member once. Frames are assigned afterwards, scope by scope, so that
the scopes around a scope are done first.
-/

namespace Flowgraph.Scoping

def openFunction (node : Option Nat) (kind : ScopeKind) (scopeNode : Nat) (place : Position)
    (name : String) : ScopeM Nat := do
  let s ← get
  let i := s.analysis.layouts.size
  let depth := match s.layout, s.enclosing with
    | some outer, _ => (s.analysis.layout outer).depth + 1
    | none, some scope => (s.analysis.layout (s.analysis.scope scope).function).depth + 1
    | none, none => 0
  let layout : Layout :=
    { node, name, scope := s.analysis.scopes.size, parent := s.layout, depth }
  changeAnalysis fun a => { a with layouts := a.layouts.push layout }
  modify fun s => { s with layout := some i, depths := {} }
  enterScope kind scopeNode place
  return i

def helpFunction : ScopeM Unit := do
  let temp ← synthetic ":expr_temp"
  let context ← synthetic ":current_context"
  changeLayout fun l => { l with expressionTemp := temp, currentContext := context }

def beginFunction (node : Option Nat) (kind : ScopeKind) (scopeNode : Nat) (place : Position)
    (name : String) : ScopeM Nat := do
  let i ← openFunction node kind scopeNode place name
  helpFunction
  return i

def endFunction (outer : Option Nat) (depths : Depths) : ScopeM Unit := do
  exitScope
  modify fun s => { s with layout := outer, depths }

def inFunction (node : Option Nat) (kind : ScopeKind) (scopeNode : Nat) (place : Position)
    (name : String) (walk : ScopeM Unit) : ScopeM Nat := do
  let s ← get
  let i ← beginFunction node kind scopeNode place name
  walk
  endFunction s.layout s.depths
  return i

def declareThis : ScopeM Unit := do
  let v ← declareIn "this" none
  changeLayout fun l => { l with this := some v }

def declareParameter (d : Tree.Declaration) : ScopeM Unit := do
  let v ← declare d
  changeLayout fun l => { l with parameters := l.parameters ++ [v] }

def requestDefaults (optional : List Tree.Declaration) : ScopeM Unit :=
  modify fun s => { s with requests := s.requests ++ optional.map fun d =>
    ⟨s.layout.getD 0, d.initializer⟩ }

def closureName (name : String) : ScopeM String := do
  let count := (← get).closureCount + 1
  modify fun s => { s with closureCount := count }
  return if name = "" then "<closure " ++ toString count ++ ">" else name

def addClosure (c : Closure) : ScopeM Unit :=
  changeAnalysis fun a => { a with closures := a.closures ++ [c] }

def inClosure (f : Tree.Function) (name : String) (walk : ScopeM Unit) : ScopeM Unit := do
  let name ← closureName name
  let i ← inFunction (some f.id) .function f.id f.place name walk
  addClosure ⟨f, name, i⟩

def inScope (kind : ScopeKind) (node : Nat) (place : Position) (walk : ScopeM Unit) : ScopeM Unit := do
  enterScope kind node place
  walk
  exitScope

def inLoop (walk : ScopeM Unit) : ScopeM Unit := do
  changeDepths fun d => { d with loop := d.loop + 1 }
  walk
  changeDepths fun d => { d with loop := d.loop - 1 }

mutual

def visitExpr : Tree.Expr → ScopeM Unit
  | .get place var => use place var
  | .set place var value => do
    visitExpr value
    use place var
  | .this place => useThis place
  | .function _ f@⟨_, _, positional, required, named, body⟩ =>
    inClosure f "" do
      visitParameters positional
      visitParameters named
      requestDefaults (positional.drop required ++ named)
      visitBody body
  | .letIn _ d@⟨_, _, _, initializer, _, _⟩ body => do
    visitOption initializer
    let _ ← declare d
    visitExpr body
  | .staticSet _ _ value | .throw _ value => visitExpr value
  | .propertyGet _ receiver _ | .directGet _ receiver _ => visitExpr receiver
  | .propertySet _ receiver _ value | .directSet _ receiver _ value => do
    visitExpr receiver
    visitExpr value
  | .staticCall _ _ args _ | .construct _ _ args _ => visitArguments args
  | .methodCall _ receiver _ args => do
    visitExpr receiver
    visitArguments args
  | .isType _ operand _ | .asType _ operand _ | .not _ operand => visitExpr operand
  | .conditional _ condition yes no => do
    visitExpr condition
    visitExpr yes
    visitExpr no
  | .logical _ _ left right => do
    visitExpr left
    visitExpr right
  | .concat _ parts => visitExprs parts
  | .list _ elements _ => visitExprs elements
  | .map _ entries _ => visitEntries entries
  | _ => pure ()

def visitExprs : List Tree.Expr → ScopeM Unit
  | [] => pure ()
  | e :: rest => do
    visitExpr e
    visitExprs rest

def visitOption : Option Tree.Expr → ScopeM Unit
  | none => pure ()
  | some e => visitExpr e

def visitEntries : List Tree.MapEntry → ScopeM Unit
  | [] => pure ()
  | ⟨key, value⟩ :: rest => do
    visitExpr key
    visitExpr value
    visitEntries rest

def visitNamed : List Tree.NamedArgument → ScopeM Unit
  | [] => pure ()
  | ⟨_, value⟩ :: rest => do
    visitExpr value
    visitNamed rest

def visitArguments : Tree.Arguments → ScopeM Unit
  | ⟨positional, named⟩ => do
    visitExprs positional
    visitNamed named

/-- Parameters come into sight one by one, each after its default. -/
def visitParameters : List Tree.Declaration → ScopeM Unit
  | [] => pure ()
  | d@⟨_, _, _, initializer, _, _⟩ :: rest => do
    visitOption initializer
    declareParameter d
    visitParameters rest

def visitDeclarations : List Tree.Declaration → ScopeM Unit
  | [] => pure ()
  | d@⟨_, _, _, initializer, _, _⟩ :: rest => do
    visitOption initializer
    let _ ← declare d
    visitDeclarations rest

def visitBody : Option Tree.Stmt → ScopeM Unit
  | none => pure ()
  | some s => visitStmt s

def visitStmt : Tree.Stmt → ScopeM Unit
  | .block id place statements => inScope .block id place (visitStmts statements)
  | .expr _ value | .yield _ value => visitExpr value
  | .declare d@⟨_, _, _, initializer, _, _⟩ => do
    visitOption initializer
    let _ ← declare d
  | .function _ d f@⟨_, _, positional, required, named, body⟩ => do
    let _ ← declare d
    inClosure f d.name do
      visitParameters positional
      visitParameters named
      requestDefaults (positional.drop required ++ named)
      visitBody body
  | .branch _ condition yes no => do
    visitExpr condition
    visitStmt yes
    visitBody no
  | .whileDo _ condition body => inLoop do
    visitExpr condition
    visitStmt body
  | .doWhile _ body condition => inLoop do
    visitStmt body
    visitExpr condition
  | .forLoop id place vars condition updates body => inScope .forLoop id place do
    visitDeclarations vars
    inLoop do
      visitOption condition
      visitExprs updates
      visitStmt body
  | .forIn id place d iterable body => do
    visitExpr iterable
    helpIterator
    changeDepths fun k => { k with forIn := k.forIn + 1 }
    inLoop <| inScope .forIn id place do
      let _ ← declare d
      visitStmt body
    changeDepths fun k => { k with forIn := k.forIn - 1 }
  | .labeled _ _ _ body => visitStmt body
  | .switch _ subject cases => do
    visitExpr subject
    helpSwitch
    changeDepths fun k => { k with switch := k.switch + 1 }
    visitCases cases
    changeDepths fun k => { k with switch := k.switch - 1 }
  | .giveBack _ value => do
    visitOption value
    helpReturn
  | .tryCatch _ body catches => do
    helpAttempt
    changeDepths fun k => { k with attempt := k.attempt + 1 }
    visitStmt body
    changeDepths fun k => { k with attempt := k.attempt - 1, handler := k.handler + 1 }
    helpHandler
    visitCatches catches
    changeDepths fun k => { k with handler := k.handler - 1 }
  | .tryFinally _ body finalizer => do
    helpAttempt
    changeDepths fun k => { k with attempt := k.attempt + 1, finalizer := k.finalizer + 1 }
    visitStmt body
    changeDepths fun k =>
      { k with attempt := k.attempt - 1, finalizer := k.finalizer - 1, handler := k.handler + 1 }
    helpHandler
    visitStmt finalizer
    changeDepths fun k => { k with handler := k.handler - 1 }
  | .assert _ condition message => do
    visitExpr condition
    visitOption message
  | _ => pure ()

def visitStmts : List Tree.Stmt → ScopeM Unit
  | [] => pure ()
  | s :: rest => do
    visitStmt s
    visitStmts rest

def visitCases : List Tree.SwitchCase → ScopeM Unit
  | [] => pure ()
  | ⟨_, _, _, tests, _, body⟩ :: rest => do
    visitExprs tests
    visitStmt body
    visitCases rest

def visitCatches : List Tree.CatchClause → ScopeM Unit
  | [] => pure ()
  | ⟨id, place, _, exception, stackTrace, body⟩ :: rest => do
    inScope .handler id place do
      exception.forM fun d => do let _ ← declare d
      stackTrace.forM fun d => do let _ ← declare d
      visitStmt body
    visitCatches rest

end

inductive Root
  | member (m : Tree.Member)
  | function (f : Tree.Function)

def visitSignature (f : Tree.Function) (hasThis : Bool) : ScopeM Unit := do
  if hasThis then declareThis
  visitParameters f.positional
  visitParameters f.named
  requestDefaults f.optional

def visitInitializer : Tree.Initializer → ScopeM Unit
  | .field _ _ value => visitExpr value
  | .superCall _ _ args | .redirect _ _ args => visitArguments args

/-- What runs before the body of a constructor: the initializers of the fields,
unless another constructor is responsible for them, and the initializer list. -/
def visitInitializers (owner : Tree.ClassDecl) (c : Tree.Constructor) : ScopeM Unit := do
  if !c.isRedirecting then
    owner.fields.forM fun f => if f.isStatic then pure () else visitOption f.initializer
  c.initializers.forM visitInitializer

def visitRoot : Root → ScopeM Unit
  | .function f => do
    let _ ← inFunction (some f.id) .function f.id f.place "" do
      visitSignature f false
      visitBody f.body
  | .member (.procedure owner p) => do
    match p.function with
    | none => malformed .unknown ("function '" ++ p.name ++ "' has no body")
    | some f =>
      let _ ← inFunction (some f.id) .function f.id f.place p.name do
        visitSignature f (owner.isSome && !p.isStatic && p.kind ≠ .factory)
        visitBody f.body
  | .member (.constructor owner c) => do
    let f := c.function
    let _ ← inFunction (some f.id) .function f.id f.place c.name do
      visitSignature f true
      visitInitializers owner c
      visitBody f.body
  | .member (.field owner f) => do
    let _ ← inFunction none .field f.id f.place f.name do
      if owner.isSome && !f.isStatic then declareThis
      visitOption f.initializer

/-! ## Frames -/

def Layout.withScope (l : Layout) (i : Nat) (outer : Int) (hasFrame : Bool) : Layout :=
  let l := if l.scope = i then { l with entryLevel := outer } else l
  if hasFrame || 0 ≤ l.entryLevel then { l with usesContexts := true } else l

def Analysis.allocateScope (a : Analysis) (enclosing : Option Nat) (i : Nat) : Analysis :=
  let s := a.scope i
  let base : Int := (enclosing.map fun e => (a.scope e).level).getD (-1)
  let outer := match s.parent with
    | none => base
    | some p => (a.scope p).level
  let captured := s.vars.filter fun v => (a.var v).isCaptured
  let hasFrame := s.isForced || !captured.isEmpty
  let level := if hasFrame then outer + 1 else outer
  let vars := captured.zipIdx.foldl
    (fun vs (v, slot) => vs.modify v fun x => { x with level, index := slot }) a.vars
  let layouts := a.layouts.modify s.function (·.withScope i outer hasFrame)
  { a with vars, layouts,
           scopes := a.scopes.modify i fun s => { s with captured, hasFrame, level } }

def Analysis.allocate (a : Analysis) (enclosing : Option Nat) : Analysis :=
  (List.range (a.scopes.size - a.firstScope)).foldl
    (fun a i => a.allocateScope enclosing (a.firstScope + i)) a

/-! ## Analyses -/

structure Outcome where
  result : Except Failure Analysis
  requests : List DefaultRequest

def run (start : Analysis) (enclosing : Option Nat) (root : Root) : Outcome :=
  let analysis : Analysis :=
    { start with closures := [], firstVariable := start.vars.size,
                 firstScope := start.scopes.size, firstLayout := start.layouts.size }
  let (result, s) := (visitRoot root).run.run { analysis, enclosing, scope := enclosing }
  { result := result.map fun _ => s.analysis.allocate enclosing, requests := s.requests }

def analyze (m : Tree.Member) : Outcome := run {} none (.member m)

/-- Analyze a nested function on its own, in a scope of an earlier analysis. The
variables it refers to there have to be captured already. -/
def analyzeNested (a : Analysis) (enclosing : Option Nat) (f : Tree.Function) : Outcome :=
  run a enclosing (.function f)

end Flowgraph.Scoping
