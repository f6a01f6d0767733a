import Flowgraph.Lowering.Function
import Flowgraph.Proofs.Lowering.Rules

/-! # Control

Statements are put together from other statements by few kinds of control. What holds
of each kind holds of all statements, and of the bodies of functions.
-/

namespace Flowgraph.Lowering

open Flowgraph.Graph (Fragment)
open Flowgraph.Tree (CatchClause Expr Stmt SwitchCase)

/-- A while loop is a for loop without variables and updates, behind no code. -/
theorem whileLoop_eq (condition : Expr) (m : LowerM Fragment) :
    whileLoop condition m = inLoop (forIterations .empty false (some condition) [] m) := by
  have hempty (f : Fragment) : append .empty f = pure f := rfl
  unfold whileLoop forIterations
  cases h : isAlways condition with
  | true =>
    have hbody (f : Fragment) : (if f.isClosed then pure f else loopForever f) =
        if f.isOpen then loopForever f else pure f := by
      cases hf : f.isOpen <;> simp [Fragment.isClosed, hf]
    simp [Option.filter, h, forUpdates, chain, hempty, hbody]
  | false => simp [Option.filter, h, forUpdates, chain, hempty]

/-- Rules for each kind of statement. The finalizers around it have to be `Fitting`. -/
structure Control (R : State → State → Prop) extends Rules R where
  Fitting : Finalizer → Prop
  choose : ∀ {c : Fragment → Bool} {k k'}, Continues k → Continues k' →
    Continues fun f => if c f then k f else k' f
  enterScope : ∀ id place, Makes (enterScope id place)
  exitScope : ∀ id, Makes (exitScope id)
  expr : ∀ e, Makes (inOrder [marked (.evaluate e) (lowerExpr e), drop])
  declare : ∀ d, Makes (lowerDeclaration d)
  function : ∀ place (d : Tree.Declaration) body, Makes (inOrder [nestedFunction body d.name,
    do storeVariable (← lookupVariable place d.ref), drop])
  branch : ∀ c {m m'}, Makes m → Makes m' → Makes (branch c m m')
  doLoop : ∀ c {m}, Makes m → Makes (doLoop m c)
  iterations : ∀ fresh c updates {m}, Makes m →
    Continues fun f => forIterations f fresh c updates m
  forIn : ∀ id place d e {m}, Makes m → Makes (forIn id place d e m)
  labeled : ∀ label fs {m}, Makes m → Makes (labeled label fs m)
  breakTo : ∀ place target {fs}, (∀ z ∈ fs, Fitting z) → Makes (breakTo place target fs)
  switchOn : ∀ e {cs : List (SwitchCase × LowerM Fragment)} fs, (∀ c ∈ cs, Makes c.2) →
    Makes (switchOn e cs fs)
  continueTo : ∀ place target {fs}, (∀ z ∈ fs, Fitting z) → Makes (continueTo place target fs)
  giveBack : ∀ place value {fs}, (∀ z ∈ fs, Fitting z) →
    Makes (giveBackThrough place fs (marked (.giveBack value) (lowerOption value)))
  tryCatch : ∀ {cs : List (CatchClause × LowerM Fragment)} {m}, (∀ c ∈ cs, Makes c.2) → Makes m →
    Makes (tryCatch cs m)
  tryFinally : ∀ {body : Finalizer → LowerM Fragment} {m}, (∀ z, Fitting z → Makes (body z)) →
    Makes m → Makes (tryFinally body m)
  assertion : ∀ c message, Makes (assertion c message)
  return_ : Continues fun f => chain f [marked (.giveBack none) nullConstant, Lowering.giveBack]

namespace Control

set_option linter.unusedSectionVars false

variable {R : State → State → Prop} [Calm R] (d : Control R)

theorem looping (fresh : Bool) (c : Option Expr) (updates : List Expr) {m : LowerM Fragment}
    (hm : d.Makes m) : d.Continues fun f => inLoop (forIterations f fresh c updates m) :=
  d.rest fun _ => d.trans (d.iterations fresh c updates hm) (d.rest fun _ => d.pure)

theorem whileLoop (c : Expr) {m : LowerM Fragment} (hm : d.Makes m) : d.Makes (whileLoop c m) := by
  rw [whileLoop_eq, ← pure_bind Fragment.empty fun f => inLoop (forIterations f _ _ _ m)]
  exact d.bind d.empty (d.looping false (some c) [] hm)

theorem forLoop (id : Nat) (place : Position) (vars : List Tree.Declaration) (c : Option Expr)
    (updates : List Expr) {m : LowerM Fragment} (hm : d.Makes m) :
    d.Makes (forLoop id place vars c updates m) := by
  refine d.idle fun scope => d.bind (d.inOrder ?_) ?_
  · rintro p (_ | ⟨_, hp⟩)
    · exact d.enterScope id place
    · obtain ⟨v, -, rfl⟩ := List.mem_map.mp hp
      exact d.declare v
  · exact d.trans (d.looping _ c updates hm) (d.chain (by simpa using d.exitScope id))

mutual

theorem lowerStmt : ∀ (s : Stmt) (fs : Finalizers), (∀ z ∈ fs, d.Fitting z) →
    d.Makes (lowerStmt fs s)
  | .absent, _, _ => d.empty
  | .empty _, _, _ => d.balanced d.empty
  | .invalid .., _, _ => d.balanced d.malformed
  | .block id place statements, fs, hfs => d.balanced <| d.bind (d.enterScope id place) <|
    d.trans (lowerBlock statements fs hfs) (d.chain (by simpa using d.exitScope id))
  | .expr _ value, _, _ => d.balanced (d.expr value)
  | .declare v, _, _ => d.declare v
  | .function place v body, _, _ => d.balanced (d.function place v body)
  | .branch _ condition yes no, fs, hfs => d.balanced <|
    d.branch condition (lowerStmt yes fs hfs) (lowerOptionStmt no fs hfs)
  | .whileDo _ condition body, fs, hfs => d.balanced (d.whileLoop condition (lowerStmt body fs hfs))
  | .doWhile _ body condition, fs, hfs => d.balanced (d.doLoop condition (lowerStmt body fs hfs))
  | .forLoop id place vars condition updates body, fs, hfs =>
    d.balanced (d.forLoop id place vars condition updates (lowerStmt body fs hfs))
  | .forIn id place v iterable body, fs, hfs =>
    d.balanced (d.forIn id place v iterable (lowerStmt body fs hfs))
  | .labeled id _ _ body, fs, hfs => d.balanced (d.labeled id fs (lowerStmt body fs hfs))
  | .breakOut place target, _, hfs => d.balanced (d.breakTo place target hfs)
  | .switch _ subject cases, fs, hfs => d.balanced <|
    d.switchOn subject fs fun _ hc => lowerCases cases fs hfs _ (List.of_mem_zip hc).2
  | .continueCase place target, _, hfs => d.balanced (d.continueTo place target hfs)
  | .giveBack place value, _, hfs => d.balanced (d.giveBack place value hfs)
  | .tryCatch _ body catches, fs, hfs => d.balanced <|
    d.tryCatch (fun _ hc => lowerCatches catches fs hfs _ (List.of_mem_zip hc).2)
      (lowerStmt body fs hfs)
  | .tryFinally _ body finalizer, fs, hfs => d.balanced <|
    d.tryFinally (fun z hz => lowerStmt body (z :: fs) (List.forall_mem_cons.mpr ⟨hz, hfs⟩))
      (lowerStmt finalizer fs hfs)
  | .assert _ condition message, _, _ => d.balanced (d.assertion condition message)
  | .yield .., _, _ => d.balanced (d.stop fun _ _ _ => ends_failAt)

theorem lowerBlock : ∀ (ss : List Stmt) (fs : Finalizers), (∀ z ∈ fs, d.Fitting z) →
    d.Continues fun f => lowerBlock fs f ss
  | [], _, _ => d.pure
  | s :: rest, fs, hfs => by
    have h := d.trans (d.append (lowerStmt s fs hfs)) (lowerBlock rest fs hfs)
    simp only [bind_assoc] at h
    exact d.choose d.pure h

theorem lowerOptionStmt : ∀ (s : Option Stmt) (fs : Finalizers), (∀ z ∈ fs, d.Fitting z) →
    d.Makes (lowerOptionStmt fs s)
  | none, _, _ => d.empty
  | some s, fs, hfs => lowerStmt s fs hfs

theorem lowerCases : ∀ (cs : List SwitchCase) (fs : Finalizers), (∀ z ∈ fs, d.Fitting z) →
    ∀ m ∈ lowerCases fs cs, d.Makes m
  | [], _, _, _, hm => nomatch hm
  | ⟨_, _, _, _, _, body⟩ :: rest, fs, hfs, m, hm => (List.mem_cons.mp hm).elim
    (· ▸ lowerStmt body fs hfs) (lowerCases rest fs hfs m)

theorem lowerCatches : ∀ (cs : List CatchClause) (fs : Finalizers), (∀ z ∈ fs, d.Fitting z) →
    ∀ m ∈ lowerCatches fs cs, d.Makes m
  | [], _, _, _, hm => nomatch hm
  | ⟨_, _, _, _, _, body⟩ :: rest, fs, hfs, m, hm => (List.mem_cons.mp hm).elim
    (· ▸ lowerStmt body fs hfs) (lowerCatches rest fs hfs m)

end

theorem bodyCode (body : Option Stmt) : d.Makes (bodyCode body) :=
  d.bind (d.lowerOptionStmt body [] (by simp)) (d.choose d.return_ d.pure)

end Control

end Flowgraph.Lowering
