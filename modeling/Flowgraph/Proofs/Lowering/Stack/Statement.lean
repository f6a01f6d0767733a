import Flowgraph.Proofs.Lowering.Control
import Flowgraph.Proofs.Lowering.Stack.Basic

/-! # The stack between statements

No statement takes a value that was on the stack before it or leaves one there, however
control leaves it.
-/

namespace Flowgraph.Lowering.Stack

open Flowgraph.Graph (Fragment)
open Scoping (Variable)

/-- The step leaves the stack as it was. -/
class Level {α : Type} (m : LowerM α) : Prop where
  tidy : Tidy false m 0 0

section Level

variable {α β : Type} {m m' : LowerM Fragment} {c : Prop} [Decidable c]

theorem Level.bind {m : LowerM α} {k : α → LowerM β} (hm : Level m) (hk : ∀ a, Level (k a)) :
    Level (m >>= k) := ⟨hm.tidy.after fun a => (hk a).tidy⟩

instance {m : LowerM α} {k : α → LowerM β} [hm : Level m] [hk : ∀ a, Level (k a)] : Level (m >>= k) :=
  hm.bind hk

instance {m m' : LowerM α} [hm : Level m] [hm' : Level m'] : Level (if c then m else m') := by
  split
  · exact hm
  · exact hm'

instance (priority := 900) {m : LowerM α} [h : Tidy false m 0 0] : Level m := ⟨h⟩

instance [h : Level m] : (tidy false).Made m 0 0 := ⟨h.tidy⟩

instance : Shifting (Aside false) := ⟨fun _ _ => ⟨rfl, rfl, by simp⟩⟩

instance : (tidy false).Closing := ⟨trivial⟩

theorem level_modify {f : State → State} (h : ∀ s, (f s).stack = s.stack ∧ (f s).code = s.code) :
    Level (modify f : LowerM PUnit) :=
  have := within_modify (R := Aside false) fun s => ⟨(h s).1, (h s).2, by simp⟩
  inferInstance

theorem level_stop {m : LowerM α} (h : ∀ env s Q, Ends env m s Q) : Level m := ⟨tidy_stop h⟩

theorem Level.reading (h : Level m) (f : Env → Env) : Level (withReader f m) :=
  ⟨⟨fun env s base rest hbase hs => ends_withReader.mpr (h.tidy.ends (f env) s base rest hbase hs)⟩⟩

instance {f : Env → Env} [h : Level m] : Level (withReader f m) := h.reading f

instance (place : Option Nat) (e : Graph.Event) : Level (noteEvent place e) :=
  level_modify fun _ => ⟨rfl, rfl⟩

instance (e : Graph.Event) {p q : Nat} [hm : (tidy false).Made m p q] :
    (tidy false).Made (marked e m) p q :=
  ⟨hm.made.then fun f => (inferInstance : Level (noteEvent f.entry e >>= fun _ => pure f)).tidy⟩

theorem decides (e : Tree.Expr) : (tidy false).Decides (lowerCondition e) :=
  (yields_lower (tidy false) e fun _ => trivial).condition

instance (e : Tree.Expr) : (tidy false).Made (lowerExpr e) 0 1 := made_lowerExpr _ e fun _ => trivial

instance (e : Option Tree.Expr) : (tidy false).Made (lowerOption e) 0 1 :=
  made_lowerOption _ e fun _ => trivial

instance (e : Tree.Expr) : Level (branchOnCondition (lowerCondition e)) :=
  ⟨tidy_branchOnCondition (decides e)⟩

instance (e : Tree.Expr) : Level (testing e) := by
  unfold testing
  infer_instance

instance (f : Fragment) : Level (chain f []) := inferInstanceAs (Level (pure f))

instance {f : Fragment} {ms : List (LowerM Fragment)} [Level m] [∀ f, Level (chain f ms)] :
    Level (chain f (m :: ms)) :=
  inferInstanceAs (Level (m >>= fun g => append f g >>= fun h => chain h ms))

instance {ms : List (LowerM Fragment)} [h : Level (chain .empty ms)] : Level (inOrder ms) := h

instance {i : Nat} {ms : List (LowerM Fragment)} [h : Level (chain (.single i) ms)] :
    Level (startingAt i ms) := h

/-- Steps that need values and leave none behind may stand in between. -/
theorem level_chain {ms : List (LowerM Fragment)} (h : (tidy false).Adds (fun f => chain f ms) 0 0)
    (f : Fragment) : Level (chain f ms) := ⟨h.made f⟩

theorem level_branch (e : Tree.Expr) [Level m] [Level m'] : Level (branch e m m') := by
  unfold branch
  refine .bind inferInstance fun b => .bind inferInstance fun yes => .bind inferInstance fun no => ?_
  split <;> infer_instance

instance [Level m] : Level (inLoop m) := by
  unfold inLoop
  infer_instance

-- Kept apart, so that the search for the instances below stays small.
instance : Level checkStackOverflow := inferInstance

instance (body header : Fragment) : Level (loopHeader body header) := by
  unfold loopHeader
  infer_instance

instance (body : Fragment) : Level (loopForever body) := by
  unfold loopForever
  infer_instance

theorem level_doLoop (e : Tree.Expr) [Level m] : Level (doLoop m e) := by
  unfold doLoop
  infer_instance

instance (e : Tree.Expr) : Level (inOrder [marked (.evaluate e) (lowerExpr e), drop]) :=
  level_chain inferInstance _

instance (d : Tree.Declaration) : Level (lowerDeclaration d) :=
  have := made_declaration (tidy false) d fun _ => trivial
  inferInstanceAs (Level (marked _ _))

instance {ms ms' : List (LowerM Fragment)} [∀ f, Level (chain f ms)] [∀ f, Level (chain f ms')]
    {f : Fragment} : Level (chain f (ms ++ ms')) := by
  rw [chain_append]
  infer_instance

instance (fresh : Bool) (updates : List Tree.Expr) (body : Fragment) :
    Level (forUpdates fresh updates body) := by
  have hclone (f : Fragment) : Level (chain f (if fresh then [cloneFrame] else [])) := by
    split <;> infer_instance
  have hupdates (f : Fragment) :
      Level (chain f (updates.flatMap fun e => [marked (.update e) (lowerExpr e), drop])) := by
    induction updates generalizing f with
    | nil => exact inferInstanceAs (Level (chain f []))
    | cons e updates ih =>
      have (f : Fragment) : Level (chain f [marked (.update e) (lowerExpr e), drop]) :=
        level_chain inferInstance f
      exact inferInstanceAs (Level (chain f ([marked (.update e) (lowerExpr e), drop] ++
        updates.flatMap fun e => [marked (.update e) (lowerExpr e), drop])))
  exact inferInstanceAs (Level (chain body (_ ++ _)))

theorem level_forIterations (f : Fragment) (fresh : Bool) (e : Option Tree.Expr)
    (updates : List Tree.Expr) [Level m] : Level (forIterations f fresh e updates m) := by
  unfold forIterations
  split <;> infer_instance

theorem tidy_storeVariable (place : Position) (r : Tree.Ref) :
    (tidy false).Made (do storeVariable (← lookupVariable place r)) 1 1 :=
  made_passive inferInstance

/-- A branch takes the value that was made for it. -/
theorem level_condition {k : Fragment → Branching → LowerM α} (hm : Tidy false m 0 1)
    (hk : ∀ f b, Level (k f b)) : Level (m >>= fun f => branchIfTrue false >>= k f) :=
  ⟨hm.over fun f => .then (m := branchIfTrue false) inferInstance fun b => (hk f b).tidy⟩

theorem level_forIn (id : Nat) (place : Position) (d : Tree.Declaration) (e : Tree.Expr) [Level m] :
    Level (forIn id place d e m) := by
  have hstore := tidy_storeVariable place d.ref
  refine .bind inferInstance fun s => .bind inferInstance fun v =>
    .bind (level_chain inferInstance _) fun f => .bind inferInstance fun _ => .bind (m := inLoop _)
      (.bind inferInstance fun _ => .bind (level_condition inferInstance fun condition b =>
        .bind inferInstance fun condition => .bind (level_chain inferInstance _) fun body => ?_)
          inferInstance) inferInstance
  dsimp only
  split
  · exact .bind inferInstance fun join => .bind inferInstance inferInstance
  · infer_instance

theorem level_assertion (e : Tree.Expr) (message : Option Tree.Expr) : Level (assertion e message) := by
  have hfail (i : Nat) : Tidy false (startingAt i [lowerOption message, pushArgument]) 0 1 :=
    tidy_startingAt inferInstance i
  have hthrow (f : Fragment) (create : Nat) :
      Tidy false (chain f [staticCall create 1 [], throwException]) 1 1 := inferInstance
  have hrest (b : Branching) : Level (do
      let failure ← startingAt b.no [lowerOption message, pushArgument]
      let create ← query
        (·.resolveConstructor ⟨Symbols.assertionErrorClass, Symbols.assertionFactory⟩)
      let _ ← chain failure [staticCall create 1 [], throwException]
      let _ ← drop
      return b.code.exitingAt b.yes) :=
    ⟨(hfail b.no).over fun f => .after inferInstance fun create => (hthrow f create).over fun _ =>
      .then (m := drop) inferInstance inferInstance⟩
  unfold assertion
  infer_instance

/-! ## Jumps -/

instance (f : Graph.Sources → Graph.Sources) : Level (note f) := level_modify fun _ => ⟨rfl, rfl⟩

theorem level_get_set {f : State → State} {k : State → LowerM α}
    (h : ∀ s, (f s).stack = s.stack ∧ (f s).code = s.code) (hk : ∀ s, Level (k s)) :
    Level (do let s ← get; set (f s); k s) := by
  refine ⟨⟨fun env s base rest hbase hs => ?_⟩⟩
  have hmoved : Aside false s (f s) := ⟨(h s).1, (h s).2, by simp⟩
  rw [ends_bind, ends_get, ends_bind, ends_set]
  exact ((hk s).tidy.ends env (f s) base rest (by rwa [(h s).2])
    (hs.moved hmoved.1 hmoved.moved.code)).mono fun _ _ h => ⟨h.1, hmoved.moved.trans h.2⟩

instance (fs : Finalizers) : Level (landing fs) := by
  unfold landing
  infer_instance

theorem level_labeled (label : Nat) (fs : Finalizers) [Level m] : Level (labeled label fs m) := by
  refine .bind inferInstance fun l => .bind (level_modify fun _ => ⟨rfl, rfl⟩) fun _ =>
    .bind inferInstance fun f => level_get_set (fun _ => ⟨rfl, rfl⟩) fun s => ?_
  split <;> infer_instance

theorem level_leaveTries (t : Int) (tries : List Int) : Level (leaveTries t tries) := by
  induction tries with
  | nil =>
    unfold leaveTries
    infer_instance
  | cons t' tries ih =>
    unfold leaveTries
    have : Level (modify fun s => { s with tries } : LowerM PUnit) := level_modify fun _ => ⟨rfl, rfl⟩
    infer_instance

instance {depths : Depths} [Level m] : Level (atDepths depths m) := by
  unfold atDepths
  infer_instance

theorem level_runFinalizers (target : Option Nat) {fs : Finalizers} (hfs : ∀ z ∈ fs, Level z.code)
    (f : Fragment) : Level (runFinalizers target fs f) := by
  induction fs generalizing f with
  | nil =>
    unfold runFinalizers
    infer_instance
  | cons z fs ih =>
    obtain ⟨hz, hfs⟩ := List.forall_mem_cons.mp hfs
    have hrest (f : Fragment) : Level (do
        let f ← chain f [atDepths z.depths z.code]
        if f.isClosed then return f
        runFinalizers target fs f) := by
      have := ih hfs
      infer_instance
    unfold runFinalizers
    split
    · infer_instance
    · refine .bind inferInstance fun f => .bind inferInstance fun s =>
        .bind (level_leaveTries _ _) fun left => ?_
      dsimp only
      split <;> infer_instance

theorem level_finalizersTo (target : Option Nat) (frame : Int) {fs : Finalizers}
    (hfs : ∀ z ∈ fs, Level z.code) : Level (finalizersTo target frame fs) := by
  have := level_runFinalizers target hfs
  have (before : State) :
      Level (modify fun s => { s with tries := before.tries, frame := before.frame } : LowerM PUnit) :=
    level_modify fun _ => ⟨rfl, rfl⟩
  unfold finalizersTo
  infer_instance

theorem level_jumpTo {fs : Finalizers} (hfs : ∀ z ∈ fs, Level z.code) (l : Landing) [Level m] :
    Level (jumpTo fs l m) :=
  have := level_finalizersTo l.finalizer l.frame hfs
  inferInstanceAs (Level (inOrder _))

theorem level_breakTo (place : Position) (target : Tree.Ref) {fs : Finalizers}
    (hfs : ∀ z ∈ fs, Level z.code) : Level (breakTo place target fs) := by
  refine .bind inferInstance fun s => ?_
  split
  · infer_instance
  · have (i : Nat) (l : Landing) : Level (jumpTo fs l (gotoJoin i)) := level_jumpTo hfs l
    dsimp only
    split
    · infer_instance
    · exact .bind inferInstance fun join => .bind (level_modify fun _ => ⟨rfl, rfl⟩) inferInstance

instance (depth index : Nat) : Level (caseDestination depth index) := by
  refine .bind inferInstance fun s => .bind inferInstance fun t => ?_
  split
  · infer_instance
  · exact .bind inferInstance fun join => .bind (level_modify fun _ => ⟨rfl, rfl⟩) inferInstance

theorem level_continueTo (place : Position) (target : Tree.Ref) {fs : Finalizers}
    (hfs : ∀ z ∈ fs, Level z.code) : Level (continueTo place target fs) := by
  refine .bind inferInstance fun s => ?_
  dsimp only
  split
  · infer_instance
  · exact .bind inferInstance fun join => level_jumpTo hfs _

theorem level_giveBackThrough (place : Position) {fs : Finalizers} (hfs : ∀ z ∈ fs, Level z.code)
    [hm : (tidy false).Made m 0 1] : Level (giveBackThrough place fs m) := by
  have huse : Tidy false popUse 1 0 := ⟨fun env s base rest _ h => (took_none h).popUse.mono
    fun _ _ h => ⟨h.carries, h.code ▸ .refl base s.code, by simp⟩⟩
  have hpop : Tidy false pop 1 0 := tidy_of_map huse
  refine ⟨hm.made.over fun f => ?_⟩
  split
  · exact hpop.then inferInstance
  · split
    · infer_instance
    · refine .after inferInstance fun env => ?_
      split
      · exact tidy_stop fun _ _ _ => ends_malformed
      · have := level_finalizersTo none (-1) hfs
        refine .after inferInstance fun pending => .then (m := chain _ _) inferInstance fun f => ?_
        have : Level (chain f [loadLocal pending, giveBack]) := level_chain inferInstance f
        exact (inferInstance : Level _).tidy

/-! ## Switches -/

theorem level_caseBodies {cs : List (Tree.SwitchCase × LowerM Fragment)} (hcs : ∀ c ∈ cs, Level c.2)
    (index : Nat) : Level (caseBodies index cs) := by
  induction cs generalizing index with
  | nil =>
    unfold caseBodies
    infer_instance
  | cons c cs ih =>
    obtain ⟨hc, hcs⟩ := List.forall_mem_cons.mp hcs
    have := ih hcs
    have : Level (inOrder [nullConstant, drop]) := level_chain inferInstance _
    refine .bind inferInstance fun body => ?_
    dsimp only
    split <;> refine .bind inferInstance fun body => ?_
    all_goals split <;> refine .bind inferInstance fun whole => ?_
    all_goals split <;> infer_instance

theorem level_caseTests (v : Variable) (destination : Option Nat) (body : Fragment)
    (tests : List Tree.Expr) (current : Fragment) :
    Level (caseTests v destination body tests current) := by
  induction tests generalizing current with
  | nil =>
    unfold caseTests
    infer_instance
  | cons test tests ih =>
    cases destination <;> exact level_condition inferInstance inferInstance

instance (index : Nat) : Level (jumpedTo index) := by
  unfold jumpedTo
  infer_instance

theorem level_switchTests (v : Variable) (cs : List (Tree.SwitchCase × Fragment)) (index : Nat)
    (current : Fragment) : Level (switchTests v index cs current) := by
  induction cs generalizing index current with
  | nil =>
    unfold switchTests
    infer_instance
  | cons c cs ih =>
    have := level_caseTests v
    refine .bind inferInstance fun destination => ?_
    dsimp only
    split <;> refine .bind inferInstance fun body => ?_
    all_goals split <;> refine .bind inferInstance fun current => ?_
    all_goals split <;> infer_instance

theorem level_switchOn (e : Tree.Expr) {cs : List (Tree.SwitchCase × LowerM Fragment)}
    (fs : Finalizers) (hcs : ∀ c ∈ cs, Level c.2) : Level (switchOn e cs fs) := by
  have := level_caseBodies hcs
  have := level_switchTests
  have hpop : Level (modify fun s => { s with switches := s.switches.tail } : LowerM PUnit) :=
    level_modify fun _ => ⟨rfl, rfl⟩
  have hstore (v : Variable) (f : Fragment) : Tidy false (chain f [storeLocal v, drop]) 1 0 :=
    inferInstance
  have hcode : Tidy false (lowerExpr e) 0 1 := inferInstance
  refine .bind inferInstance fun before => .bind inferInstance fun v => ⟨hcode.over fun code =>
    .after inferInstance fun s => (hstore v code).then fun head => ?_⟩
  refine (?_ : Level _).tidy
  split
  · infer_instance
  · refine .bind inferInstance fun l => .bind (level_modify fun _ => ⟨rfl, rfl⟩) fun _ =>
      .bind inferInstance fun _ => .bind inferInstance fun bodies => .bind inferInstance fun f => ?_
    infer_instance

/-! ## Handlers -/

instance : Within (Aside false) allocateTry := ⟨fun _ _ => ends_modifyGet.mpr ⟨rfl, rfl, by simp⟩⟩

instance (t : Nat) : Level (enterTry t) := by
  have hsave : Level (inOrder [loadFrameVariable, do storeLocal (← savedFrame), drop]) :=
    have : (tidy false).Made (do storeLocal (← savedFrame)) 1 1 := made_passive inferInstance
    level_chain inferInstance _
  unfold enterTry
  infer_instance

instance (t : Nat) [Level m] : Level (inTry t m) :=
  .bind inferInstance fun _ => .bind (level_modify fun _ => ⟨rfl, rfl⟩) fun _ =>
    .bind inferInstance fun _ => .bind (level_modify fun _ => ⟨rfl, rfl⟩) inferInstance

instance (t : Nat) : Level (caughtHere t) := by
  unfold caughtHere
  infer_instance

instance (c : Caught) (guards : List String) : Level (enterHandler c guards) := by
  refine .bind inferInstance fun t => .bind inferInstance fun entry =>
    .bind (level_modify fun _ => ⟨rfl, rfl⟩) fun _ => .bind inferInstance fun framed => ?_
  split
  · exact level_chain inferInstance _
  · infer_instance

instance {m : LowerM α} [Level m] : Level (inHandler m) := by
  unfold inHandler
  infer_instance

instance (c : Caught) : Level (rethrowHere c) := by
  have hthrow : Tidy false (inOrder [loadLocal c.exception, pushArgument, loadLocal c.stackTrace,
    pushArgument, rethrowException c.tryIndex]) 0 1 := inferInstance
  exact ⟨hthrow.over fun f => .then (m := drop) inferInstance inferInstance⟩

instance (caught : Caught) (c : Tree.CatchClause) [Level m] : Level (clauseCode caught c m) := by
  have hload (v : Variable) (d : Tree.Declaration) (f : Fragment) : Level (chain f
      [loadLocal v, do storeVariable (← lookupVariable c.place d.ref), drop]) :=
    have := tidy_storeVariable c.place d.ref
    level_chain inferInstance f
  have hhandle : Level (do
      modify fun s => { s with caught := caught :: s.caught }
      let f ← m
      modify fun s => { s with caught := s.caught.tail }
      return f) :=
    .bind (level_modify fun _ => ⟨rfl, rfl⟩) fun _ => .bind inferInstance fun f =>
      .bind (level_modify fun _ => ⟨rfl, rfl⟩) inferInstance
  unfold clauseCode
  cases c.exception <;> cases c.stackTrace <;> infer_instance

theorem level_clauses (caught : Caught) (after : Nat)
    {cs : List (Tree.CatchClause × LowerM Fragment)} (hcs : ∀ c ∈ cs, Level c.2) (f : Fragment)
    (reached : Bool) : Level (clauses caught after cs f reached) := by
  induction cs generalizing f reached with
  | nil =>
    unfold clauses
    infer_instance
  | cons c cs ih =>
    obtain ⟨hc, hcs⟩ := List.forall_mem_cons.mp hcs
    have := ih hcs
    refine .bind inferInstance fun handler => ?_
    dsimp only
    split <;> refine .bind inferInstance fun handler => ?_
    all_goals
      split
      · infer_instance
      · exact level_condition inferInstance inferInstance

theorem level_tryCatch {cs : List (Tree.CatchClause × LowerM Fragment)} (hcs : ∀ c ∈ cs, Level c.2)
    [Level m] : Level (tryCatch cs m) := by
  have := fun caught after => level_clauses caught after hcs
  unfold tryCatch
  split
  · infer_instance
  · refine .bind inferInstance fun t => .bind inferInstance fun entry => .bind inferInstance fun after =>
      .bind inferInstance fun f => ?_
    dsimp only
    split
    · exact .bind inferInstance fun _ => inferInstance
    · infer_instance

theorem level_tryFinally {body : Finalizer → LowerM Fragment}
    (hbody : ∀ z, Level z.code → Level (body z)) [Level m] : Level (tryFinally body m) := by
  refine .bind inferInstance fun env => .bind inferInstance fun t => .bind inferInstance fun entry =>
    .bind inferInstance fun after => .bind inferInstance fun s => .bind inferInstance fun outer =>
      .bind (level_modify fun _ => ⟨rfl, rfl⟩) fun _ => ?_
  have hz (id : Nat) (frame tryIndex : Int) (depths : Depths) := hbody
    ⟨id, frame, tryIndex, depths, withReader (fun e => { e with within := env.within }) m⟩ inferInstance
  refine .bind inferInstance fun f => ?_
  dsimp only
  split
  · refine .bind inferInstance fun join => .bind inferInstance fun _ => .bind inferInstance fun normal => ?_
    split <;> refine .bind inferInstance fun _ => ?_
    all_goals infer_instance
  · infer_instance

/-- Each kind of statement leaves the stack as it was. -/
def control : Control (Aside false) where
  toRules := {
    Makes := Level
    Continues := fun k => ∀ f, Level (k f)
    empty := inferInstance
    stop := level_stop
    bind := .bind
    idle := .bind inferInstance
    pure := inferInstance
    trans := fun hk hk' f => (hk f).bind hk'
    append := fun hm f => hm.bind inferInstance
    rest := fun hk f => .bind inferInstance fun a => hk a f }
  Fitting z := Level z.code
  choose hk hk' f := by
    dsimp only
    split
    · exact hk f
    · exact hk' f
  enterScope _ _ := inferInstance
  exitScope _ := inferInstance
  expr _ := inferInstance
  declare _ := inferInstance
  function place d body :=
    have := tidy_storeVariable place d.ref
    level_chain inferInstance _
  branch c _ _ _ _ := level_branch c
  doLoop c _ _ := level_doLoop c
  iterations fresh c updates _ _ f := level_forIterations f fresh c updates
  forIn id place d e _ _ := level_forIn id place d e
  labeled label fs _ _ := level_labeled label fs
  breakTo place target _ := level_breakTo place target
  switchOn e _ fs := level_switchOn e fs
  continueTo place target _ := level_continueTo place target
  giveBack place _ _ hfs := level_giveBackThrough place hfs
  tryCatch hcs _ := level_tryCatch hcs
  tryFinally hbody _ := level_tryFinally hbody
  assertion := level_assertion
  return_ f := level_chain inferInstance f

end Level

end Flowgraph.Lowering.Stack
