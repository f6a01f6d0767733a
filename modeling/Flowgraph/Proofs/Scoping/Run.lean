import Flowgraph.Proofs.Scoping.Moves

/-! # The analysis as a run

Visiting a tree is performing its word, move by move.
-/

namespace Flowgraph.Scoping

variable {α β : Type}

/-! ## Results of computations -/

/-- What a computation gives and the state after it, unless it fails. -/
def result (m : ScopeM α) (s : State) : Except Failure (α × State) :=
  match m.run.run s with
  | (.ok a, t) => .ok (a, t)
  | (.error f, _) => .error f

theorem result_bind (m : ScopeM α) (f : α → ScopeM β) (s : State) :
    result (m >>= f) s = (result m s).bind fun x => result (f x.1) x.2 := by
  unfold result ExceptT.run StateT.run
  simp only [bind, ExceptT.bind, ExceptT.mk, StateT.bind, ExceptT.bindCont]
  rcases m s with ⟨_ | a, t⟩
  · rfl
  · rfl

theorem result_pure (a : α) (s : State) : result (pure a) s = .ok (a, s) := rfl

variable {mv : Move} {w : List Move} {walk : ScopeM Unit}

/-! ## The machine -/

/-- What the machine goes back to when a function ends, and the closure that is noted then. -/
structure Saved where
  layout : Option Nat
  depths : Depths
  closure : Option Closure := none

structure Machine where
  state : State
  /-- One entry for each function that is open, innermost first. -/
  saved : List Saved := []

def Help.ask : Help → ScopeM Unit
  | switch => helpSwitch
  | attempt => helpAttempt
  | handler => helpHandler
  | iterator => helpIterator
  | giveBack => helpReturn

/-- What a move does that neither begins nor ends a function. -/
def Move.act : Move → ScopeM Unit
  | enter kind node place => enterScope kind node place
  | exit => exitScope
  | declare d => Scoping.declare d >>= fun _ => pure ()
  | parameter d => declareParameter d
  | receiver => declareThis
  | mention place var => use place var
  | this place => useThis place
  | count change => changeDepths change
  | help h => h.ask
  | request optional => requestDefaults optional
  | begin .. | nest .. | finish => pure ()

def step (M : Machine) : Move → Except Failure Machine
  | .begin node kind scopeNode place name => do
    let (_, t) ← result (beginFunction node kind scopeNode place name) M.state
    return ⟨t, ⟨M.state.layout, M.state.depths, none⟩ :: M.saved⟩
  | .nest f name => do
    let (name, s) ← result (closureName name) M.state
    let (i, t) ← result (beginFunction (some f.id) .function f.id f.place name) s
    return ⟨t, ⟨s.layout, s.depths, some ⟨f, name, i⟩⟩ :: M.saved⟩
  | .finish => match M.saved with
    | [] => return M
    | ⟨layout, depths, closure⟩ :: rest => do
      let (_, t) ← result (endFunction layout depths) M.state
      let (_, t) ← result (closure.forM addClosure) t
      return ⟨t, rest⟩
  | m => do
    let (_, t) ← result m.act M.state
    return ⟨t, M.saved⟩

/-- Run the machine over a word. -/
def perform (M : Machine) (w : List Move) : Except Failure Machine := w.foldlM step M

theorem perform_cons (M : Machine) (mv : Move) (w : List Move) :
    perform M (mv :: w) = (step M mv).bind (perform · w) := rfl

theorem perform_append (M : Machine) (v w : List Move) :
    perform M (v ++ w) = (perform M v).bind (perform · w) := List.foldlM_append

/-! ## Words and computations -/

def Move.isInner : Move → Bool
  | begin .. | nest .. | finish => false
  | _ => true

theorem step_inner (h : mv.isInner = true) (M : Machine) :
    step M mv = (result mv.act M.state).map fun x => ⟨x.2, M.saved⟩ := by
  cases mv <;> first | rfl | simp [Move.isInner] at h

/-- The computation does what the word says. -/
def Performs (m : ScopeM α) (w : List Move) : Prop :=
  ∀ M, perform M w = (result m M.state).map fun x => ⟨x.2, M.saved⟩

theorem performs_pure (a : α) : Performs (pure a) [] := fun _ => rfl

theorem Performs.seq {m : ScopeM α} {n : ScopeM β} {v : List Move} (hm : Performs m v)
    (hn : Performs n w) : Performs (m >>= fun _ => n) (v ++ w) := by
  intro M
  rw [perform_append, hm, result_bind]
  cases result m M.state with
  | error e => rfl
  | ok x => exact hn ⟨x.2, M.saved⟩

theorem performs_act (h : mv.isInner = true) : Performs mv.act [mv] := by
  intro M
  rw [perform_cons, step_inner h]
  cases result mv.act M.state with
  | error e => rfl
  | ok x => rfl

theorem performs_declare (d : Tree.Declaration) : Performs (declare d) [.declare d] := by
  intro M
  rw [perform_cons, step_inner rfl, Move.act, result_bind]
  cases result (declare d) M.state with
  | error e => rfl
  | ok x => rfl

theorem Performs.finish (h : Performs walk w) (s : State) (outer : Saved) (rest : List Saved) :
    perform ⟨s, outer :: rest⟩ (w ++ [.finish]) =
      (result (do walk; endFunction outer.layout outer.depths; outer.closure.forM addClosure) s).map
        fun x => ⟨x.2, rest⟩ := by
  rw [perform_append, h, result_bind]
  cases result walk s with
  | error e => rfl
  | ok x =>
    obtain ⟨layout, depths, closure⟩ := outer
    cases closure with
    | none => rfl
    | some c => rfl

theorem Performs.inFunction (h : Performs walk w)
    (node : Option Nat) (kind : ScopeKind) (scopeNode : Nat) (place : Position) (name : String) :
    Performs (inFunction node kind scopeNode place name walk)
      (.begin node kind scopeNode place name :: (w ++ [.finish])) := by
  intro M
  obtain ⟨i, t, hbegin⟩ : ∃ i t,
      result (beginFunction node kind scopeNode place name) M.state = .ok (i, t) := ⟨_, _, rfl⟩
  have hstep : step M (.begin node kind scopeNode place name) =
      .ok ⟨t, ⟨M.state.layout, M.state.depths, none⟩ :: M.saved⟩ := by
    simp only [step, bind, Except.bind, hbegin, pure, Except.pure]
  have hget : result get M.state = .ok (M.state, M.state) := rfl
  rw [perform_cons, hstep]
  simp only [Except.bind, h.finish, Scoping.inFunction, result_bind, hget, hbegin]
  cases result walk t with
  | error e => rfl
  | ok x => rfl

theorem Performs.inClosure (h : Performs walk w) (f : Tree.Function) (name : String) :
    Performs (inClosure f name walk) (.nest f name :: (w ++ [.finish])) := by
  intro M
  obtain ⟨name', s, hname⟩ : ∃ name' s, result (closureName name) M.state = .ok (name', s) :=
    ⟨_, _, rfl⟩
  obtain ⟨i, t, hbegin⟩ : ∃ i t,
      result (beginFunction (some f.id) .function f.id f.place name') s = .ok (i, t) := ⟨_, _, rfl⟩
  have hstep : step M (.nest f name) =
      .ok ⟨t, ⟨s.layout, s.depths, some ⟨f, name', i⟩⟩ :: M.saved⟩ := by
    simp only [step, hname, bind, Except.bind, hbegin, pure, Except.pure]
  have hget : result get s = .ok (s, s) := rfl
  rw [perform_cons, hstep]
  simp only [Except.bind, h.finish, Scoping.inClosure, hname, Scoping.inFunction, result_bind, hget,
    hbegin]
  cases result walk t with
  | error e => rfl
  | ok x => rfl

/-! ## Balanced words -/

def Move.isPlain : Move → Bool
  | begin .. | nest .. | finish | enter .. | exit | receiver => false
  | _ => true

/-- A word in which every scope and every function that begins ends. -/
inductive Balanced : List Move → Prop
  | nil : Balanced []
  | plain {mv : Move} : mv.isPlain = true → Balanced [mv]
  | append {v w : List Move} : Balanced v → Balanced w → Balanced (v ++ w)
  | scope {kind : ScopeKind} {node : Nat} {place : Position} {w : List Move} : Balanced w →
      Balanced (.enter kind node place :: (w ++ [.exit]))
  | nest {f : Tree.Function} {name : String} {w : List Move} :
      functionMoves name f = .nest f name :: (w ++ [.finish]) → Balanced w →
      Balanced (functionMoves name f)

structure Reads (m : ScopeM α) (w : List Move) : Prop where
  performs : Performs m w
  balanced : Balanced w

theorem reads_pure (a : α) : Reads (pure a) [] := ⟨performs_pure a, .nil⟩

theorem Reads.seq {m : ScopeM α} {n : ScopeM β} {v : List Move} (hm : Reads m v) (hn : Reads n w) :
    Reads (m >>= fun _ => n) (v ++ w) :=
  ⟨hm.performs.seq hn.performs, hm.balanced.append hn.balanced⟩

theorem Reads.cons {m : ScopeM α} {n : ScopeM β} (hm : Reads m [mv])
    (hn : Reads n w) : Reads (m >>= fun _ => n) (mv :: w) := hm.seq hn

theorem Reads.act (mv : Move) (h : mv.isPlain = true) : Reads mv.act [mv] where
  performs := performs_act (by cases mv <;> first | rfl | simp [Move.isPlain] at h)
  balanced := .plain h

theorem reads_declare (d : Tree.Declaration) : Reads (declare d) [.declare d] :=
  ⟨performs_declare d, .plain rfl⟩

theorem reads_count (change : Depths → Depths) : Reads (changeDepths change) [.count change] :=
  .act (.count change) rfl

theorem Reads.inClosure (h : Reads walk w) {f : Tree.Function}
    {name : String} (hw : functionMoves name f = .nest f name :: (w ++ [.finish])) :
    Reads (inClosure f name walk) (functionMoves name f) where
  performs := by
    rw [hw]
    exact h.performs.inClosure f name
  balanced := .nest hw h.balanced

theorem Reads.inScope (h : Reads walk w) (kind : ScopeKind) (node : Nat) (place : Position) :
    Reads (inScope kind node place walk) (.enter kind node place :: (w ++ [.exit])) where
  performs :=
    have henter : Performs (enterScope kind node place) [.enter kind node place] := performs_act rfl
    have hexit : Performs exitScope [.exit] := performs_act rfl
    henter.seq (h.performs.seq hexit)
  balanced := h.balanced.scope

theorem Reads.inLoop (h : Reads walk w) : Reads (inLoop walk) (deeper :: (w ++ [shallower])) :=
  Reads.cons (reads_count _) (h.seq (reads_count _))

theorem reads_forM (d : Option Tree.Declaration) :
    Reads (d.forM fun d => do let _ ← declare d) (d.toList.map .declare) := by
  cases d with
  | none => exact reads_pure _
  | some d => exact (reads_declare d).seq (reads_pure _)

/-! ## Trees -/

mutual

theorem reads_visitExpr : ∀ e : Tree.Expr, Reads (visitExpr e) (exprMoves e)
  | .get place var => .act (.mention place var) rfl
  | .set place var value => (reads_visitExpr value).seq (.act (.mention place var) rfl)
  | .this place => .act (.this place) rfl
  | .function _ ⟨_, _, positional, _, named, body⟩ =>
    .inClosure ((reads_visitParameters positional).seq ((reads_visitParameters named).seq
      (Reads.cons (.act (.request _) rfl) (reads_visitBody body)))) rfl
  | .letIn _ ⟨_, _, _, initializer, _, _⟩ body =>
    (reads_visitOption initializer).seq (Reads.cons (reads_declare _) (reads_visitExpr body))
  | .staticSet _ _ value | .throw _ value => reads_visitExpr value
  | .propertyGet _ receiver _ | .directGet _ receiver _ => reads_visitExpr receiver
  | .propertySet _ receiver _ value | .directSet _ receiver _ value =>
    (reads_visitExpr receiver).seq (reads_visitExpr value)
  | .staticCall _ _ args _ | .construct _ _ args _ => reads_visitArguments args
  | .methodCall _ receiver _ args => (reads_visitExpr receiver).seq (reads_visitArguments args)
  | .isType _ operand _ | .asType _ operand _ | .not _ operand => reads_visitExpr operand
  | .conditional _ condition yes no =>
    (reads_visitExpr condition).seq ((reads_visitExpr yes).seq (reads_visitExpr no))
  | .logical _ _ left right => (reads_visitExpr left).seq (reads_visitExpr right)
  | .concat _ parts => reads_visitExprs parts
  | .list _ elements _ => reads_visitExprs elements
  | .map _ entries _ => reads_visitEntries entries
  | .absent | .invalid .. | .null _ | .bool .. | .int .. | .double .. | .string .. | .symbol ..
  | .typeLit .. | .staticGet .. | .rethrow _ => reads_pure _

theorem reads_visitExprs (es : List Tree.Expr) : Reads (visitExprs es) (exprsMoves es) := by
  cases es with
  | nil => exact reads_pure _
  | cons e rest => exact (reads_visitExpr e).seq (reads_visitExprs rest)

theorem reads_visitOption : ∀ e : Option Tree.Expr, Reads (visitOption e) (optionMoves e)
  | none => reads_pure _
  | some e => reads_visitExpr e

theorem reads_visitEntries : ∀ es : List Tree.MapEntry, Reads (visitEntries es) (entryMoves es)
  | [] => reads_pure _
  | ⟨key, value⟩ :: rest =>
    (reads_visitExpr key).seq ((reads_visitExpr value).seq (reads_visitEntries rest))

theorem reads_visitNamed (args : List Tree.NamedArgument) :
    Reads (visitNamed args) (namedMoves args) := by
  cases args with
  | nil => exact reads_pure _
  | cons arg rest =>
    cases arg with
    | mk _ value => exact (reads_visitExpr value).seq (reads_visitNamed rest)

theorem reads_visitArguments : ∀ args : Tree.Arguments, Reads (visitArguments args) (argumentMoves args)
  | ⟨positional, named⟩ => (reads_visitExprs positional).seq (reads_visitNamed named)

theorem reads_visitParameters : ∀ ds : List Tree.Declaration,
    Reads (visitParameters ds) (parameterMoves ds)
  | [] => reads_pure _
  | ⟨_, _, _, initializer, _, _⟩ :: rest =>
    (reads_visitOption initializer).seq (Reads.cons (.act (.parameter _) rfl)
      (reads_visitParameters rest))

theorem reads_visitDeclarations : ∀ ds : List Tree.Declaration,
    Reads (visitDeclarations ds) (declarationMoves ds)
  | [] => reads_pure _
  | ⟨_, _, _, initializer, _, _⟩ :: rest =>
    (reads_visitOption initializer).seq (Reads.cons (reads_declare _) (reads_visitDeclarations rest))

theorem reads_visitBody : ∀ s : Option Tree.Stmt, Reads (visitBody s) (bodyMoves s)
  | none => reads_pure _
  | some s => reads_visitStmt s

theorem reads_visitStmt : ∀ s : Tree.Stmt, Reads (visitStmt s) (stmtMoves s)
  | .block _ _ statements => (reads_visitStmts statements).inScope ..
  | .expr _ value | .yield _ value => reads_visitExpr value
  | .declare ⟨_, _, _, initializer, _, _⟩ =>
    (reads_visitOption initializer).seq (Reads.cons (reads_declare _) (reads_pure _))
  | .function _ d ⟨_, _, positional, _, named, body⟩ =>
    Reads.cons (reads_declare d) (.inClosure ((reads_visitParameters positional).seq
      ((reads_visitParameters named).seq
        (Reads.cons (.act (.request _) rfl) (reads_visitBody body)))) rfl)
  | .branch _ condition yes no =>
    (reads_visitExpr condition).seq ((reads_visitStmt yes).seq (reads_visitBody no))
  | .whileDo _ condition body => ((reads_visitExpr condition).seq (reads_visitStmt body)).inLoop
  | .doWhile _ body condition => ((reads_visitStmt body).seq (reads_visitExpr condition)).inLoop
  | .forLoop _ _ vars condition updates body =>
    ((reads_visitDeclarations vars).seq (((reads_visitOption condition).seq
      ((reads_visitExprs updates).seq (reads_visitStmt body))).inLoop)).inScope ..
  | .forIn _ _ d iterable body =>
    (reads_visitExpr iterable).seq (Reads.cons (.act (.help .iterator) rfl)
      (Reads.cons (reads_count _)
        (((Reads.cons (reads_declare d) (reads_visitStmt body)).inScope ..).inLoop.seq
          (reads_count _))))
  | .labeled _ _ _ body => reads_visitStmt body
  | .switch _ subject cases =>
    (reads_visitExpr subject).seq (Reads.cons (.act (.help .switch) rfl)
      (Reads.cons (reads_count _) ((reads_visitCases cases).seq (reads_count _))))
  | .giveBack _ value => (reads_visitOption value).seq (.act (.help .giveBack) rfl)
  | .tryCatch _ body catches =>
    Reads.cons (.act (.help .attempt) rfl) (Reads.cons (reads_count _)
      ((reads_visitStmt body).seq (Reads.cons (reads_count _)
        (Reads.cons (.act (.help .handler) rfl)
          ((reads_visitCatches catches).seq (reads_count _))))))
  | .tryFinally _ body finalizer =>
    Reads.cons (.act (.help .attempt) rfl) (Reads.cons (reads_count _)
      ((reads_visitStmt body).seq (Reads.cons (reads_count _)
        (Reads.cons (.act (.help .handler) rfl)
          ((reads_visitStmt finalizer).seq (reads_count _))))))
  | .assert _ condition message => (reads_visitExpr condition).seq (reads_visitOption message)
  | .absent | .invalid .. | .empty _ | .breakOut .. | .continueCase .. => reads_pure _

theorem reads_visitStmts : ∀ l : List Tree.Stmt, Reads (visitStmts l) (stmtsMoves l)
  | [] => reads_pure _
  | s :: rest => (reads_visitStmt s).seq (reads_visitStmts rest)

theorem reads_visitCases (l : List Tree.SwitchCase) : Reads (visitCases l) (caseMoves l) := by
  cases l with
  | nil => exact reads_pure _
  | cons c rest =>
    cases c with
    | mk _ _ _ tests _ body =>
      exact (reads_visitExprs tests).seq ((reads_visitStmt body).seq (reads_visitCases rest))

theorem reads_visitCatches : ∀ l : List Tree.CatchClause, Reads (visitCatches l) (catchMoves l)
  | [] => reads_pure _
  | ⟨_, _, _, exception, stackTrace, body⟩ :: rest =>
    (((reads_forM exception).seq ((reads_forM stackTrace).seq (reads_visitStmt body))).inScope ..).seq
      (reads_visitCatches rest)

end

/-! ## Members -/

theorem Performs.withReceiver (h : Performs walk w) (hasThis : Bool) :
    Performs (do
      if hasThis then declareThis
      walk) ((if hasThis then [.receiver] else []) ++ w) := by
  cases hasThis with
  | false => exact h
  | true =>
    have hreceiver : Performs declareThis [.receiver] := performs_act rfl
    exact hreceiver.seq h

theorem reads_parameters (f : Tree.Function) : Reads (do
    visitParameters f.positional
    visitParameters f.named
    requestDefaults f.optional) (signatureMoves f) :=
  (reads_visitParameters f.positional).seq ((reads_visitParameters f.named).seq
    (.act (.request f.optional) rfl))

theorem Performs.withSignature (h : Performs walk w) (f : Tree.Function) (hasThis : Bool) :
    Performs (do visitSignature f hasThis; walk)
      ((if hasThis then [.receiver] else []) ++ (signatureMoves f ++ w)) := by
  rw [← List.append_assoc]
  exact ((reads_parameters f).performs.withReceiver hasThis).seq h

theorem reads_visitInitializer (i : Tree.Initializer) :
    Reads (visitInitializer i) (initializerMoves i) := by
  cases i with
  | field _ _ value => exact reads_visitExpr value
  | superCall _ _ args => exact reads_visitArguments args
  | redirect _ _ args => exact reads_visitArguments args

theorem reads_forM_list {ι : Type} {visit : ι → ScopeM Unit} {moves : ι → List Move}
    (h : ∀ i, Reads (visit i) (moves i)) (l : List ι) : Reads (l.forM visit) (l.flatMap moves) := by
  induction l with
  | nil => exact reads_pure _
  | cons i rest ih => exact (h i).seq ih

theorem reads_visitInitializers (owner : Tree.ClassDecl) (c : Tree.Constructor) :
    Reads (visitInitializers owner c) (initializersMoves owner c) := by
  have hfield (f : Tree.Field) : Reads (if f.isStatic then pure () else visitOption f.initializer)
      (if f.isStatic then [] else optionMoves f.initializer) := by
    split
    · exact reads_pure _
    · exact reads_visitOption f.initializer
  have hrest := reads_forM_list reads_visitInitializer c.initializers
  unfold visitInitializers initializersMoves
  split
  · exact (reads_forM_list hfield owner.fields).seq hrest
  · exact hrest

/-- A procedure may lack its function. -/
def hasFunction : Tree.Member → Bool
  | .procedure _ p => p.function.isSome
  | .constructor .. | .field .. => true

theorem performs_member {m : Tree.Member} (hm : hasFunction m = true) :
    Performs (visitRoot (.member m)) (memberMoves m) := by
  have hcall {walk : ScopeM Unit} {w : List Move} (h : Performs walk w) (node : Option Nat)
      (kind : ScopeKind) (scopeNode : Nat) (place : Position) (name : String) :
      Performs (do let _ ← inFunction node kind scopeNode place name walk)
        (.begin node kind scopeNode place name :: (w ++ [.finish])) := by
    simpa only [List.append_nil] using
      (h.inFunction node kind scopeNode place name).seq (performs_pure ())
  cases m with
  | procedure owner p =>
    cases hf : p.function with
    | none => simp [hasFunction, hf] at hm
    | some f =>
      simp only [memberMoves, beginMove, insideMoves, visitRoot, hf]
      exact hcall ((reads_visitBody f.body).performs.withSignature f _) _ _ _ _ _
  | constructor owner c =>
    exact hcall (((reads_visitInitializers owner c).seq
      (reads_visitBody c.function.body)).performs.withSignature c.function true) _ _ _ _ _
  | field owner f => exact hcall ((reads_visitOption f.initializer).performs.withReceiver _) _ _ _ _ _

theorem balanced_insideMoves (m : Tree.Member) : Balanced (insideMoves m) := by
  cases m with
  | procedure owner p =>
    cases hf : p.function with
    | none => simpa only [insideMoves, hf] using Balanced.nil
    | some f =>
      simpa only [insideMoves, hf] using
        (reads_parameters f).balanced.append (reads_visitBody f.body).balanced
  | constructor owner c =>
    exact (reads_parameters c.function).balanced.append
      ((reads_visitInitializers owner c).balanced.append (reads_visitBody _).balanced)
  | field owner f => exact (reads_visitOption f.initializer).balanced

/-- The analysis of a member is the run over its word, and frames for the scopes at the end. -/
theorem analyze_result {m : Tree.Member} (hm : hasFunction m = true) :
    (analyze m).result =
      (perform { state := {} } (memberMoves m)).map fun M => M.state.analysis.allocate none := by
  rw [performs_member hm]
  show (((visitRoot (.member m)).run.run {}).1.map fun _ =>
    ((visitRoot (.member m)).run.run {}).2.analysis.allocate none) = _
  unfold result
  rcases (visitRoot (.member m)).run.run {} with ⟨_ | _, s⟩
  · rfl
  · rfl

theorem exists_perform_of_analyze {m : Tree.Member} {a : Analysis} (h : (analyze m).result = .ok a) :
    ∃ M, perform { state := {} } (memberMoves m) = .ok M ∧ a = M.state.analysis.allocate none := by
  have hm : hasFunction m = true := by
    cases m with
    | procedure owner p =>
      cases hf : p.function with
      | none =>
        simp only [analyze, run, visitRoot, hf] at h
        cases h
      | some f => simp [hasFunction, hf]
    | constructor owner c => rfl
    | field owner f => rfl
  rw [analyze_result hm] at h
  cases hM : perform { state := {} } (memberMoves m) with
  | error e => simp [hM, Except.map] at h
  | ok M => exact ⟨M, rfl, by simpa [hM, Except.map] using h.symm⟩

end Flowgraph.Scoping
