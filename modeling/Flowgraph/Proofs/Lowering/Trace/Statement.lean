import Flowgraph.Lowering.Statement
import Flowgraph.Proofs.Lowering.Assembly.Jump
import Flowgraph.Proofs.Lowering.Trace.Loop

/-! # Statements do what they say

The code of a statement that is put together from expressions, declarations, blocks,
branches, loops, labels, breaks and returns, and that throws nothing, tells what the
execution of the statement meets.
-/

namespace Flowgraph.Lowering.Trace

open Flowgraph.Graph (Code Event Fragment)
open Flowgraph.Tree (Expr Stmt)

section Jumps

variable {o : Oracle} {env : Env} {s t : State} {w : Finished} {W : Nat → Option Nat}
  {L : List Fragment} {f g : Fragment} {m : LowerM Fragment} {D : Run Ending} {b : Breakable}
  {bs : List Breakable} {κ : Ending → Tale} {label n join : Nat}

/-! ## Labels -/

theorem targetOf_cons : targetOf (b :: bs) label =
    if b.label = label then b.destination else targetOf bs label := by
  unfold targetOf
  rw [List.find?_cons]
  by_cases h : b.label = label
  · simp [h]
  · simp [h]

theorem Later.pop (hw : Later { s with breakables := bs } w W) (hs : s.breakables = b :: bs) :
    Later s w fun label => if b.label = label then b.destination else W label where
  code := hw.code
  events := hw.events
  targets label j hj := by
    rw [hs, targetOf_cons] at hj
    split at hj
    · rwa [if_pos ‹_›]
    · rw [if_neg ‹_›]
      exact hw.targets label j hj

/-- Breaks to the label lead to the end of the statement. -/
theorem Leaves.outOf (hκ : Leaves o w W n κ)
    (hb : ∀ j, b.destination = some j → Tells o w n (κ .normal) j) :
    Leaves o w (fun label => if b.label = label then b.destination else W label) n
      fun x => κ (x.outOf b.label) where
  bound := hκ.bound
  broke label j hj := by
    dsimp only [Ending.outOf]
    split at hj
    · rw [if_pos (Eq.symm ‹_›)]
      exact hb j hj
    · rw [if_neg (Ne.symm ‹_›)]
      exact hκ.broke label j hj
  returned := hκ.returned

/-- The body of a labeled statement was lowered. The label is the innermost one. -/
theorem Passes.outOf (hf : Passes o s .empty f D) (hs : s.breakables = b :: bs)
    (hw : Later { s with breakables := bs } w W) (hκ : Leaves o w W n κ)
    (hb : ∀ j, b.destination = some j → Tells o w n (κ .normal) j) {i : Nat}
    (hi : w.code.Through f (Tells o w n (κ .normal)) i) :
    Tells o w n ((do return (← D).outOf b.label : Run Ending).goOn κ) i := by
  rw [goOn_outOf]
  exact hf (hw.pop hs) (hκ.outOf hb) hi

theorem lays_labeled (label : Nat) (fs : Finalizers) (hm : Lays o m D) :
    Lays o (labeled label fs m) (do return (← D).outOf label) := by
  refine .idle (r := landing fs) fun l env s L hs => ?_
  rw [ends_bind, ends_modify]
  have hinv : Inv { s with breakables := ⟨label, l, none⟩ :: s.breakables } L :=
    ⟨hs.held, hs.notes, hs.joined⟩
  refine (hm env _ L hinv).bind fun f t hf => ?_
  obtain ⟨b, bs, hb, hbs, ht⟩ := List.forall₂_cons_left_iff.mp hf.step.breakables
  obtain rfl : b.label = label := hb.1
  have hstep : Step s { t with breakables := bs } := ⟨hf.step.code, hf.step.events, hbs⟩
  have hheld := hf.inv.held
  have hjoined := hf.inv.joined
  have hsize := fun j => hf.inv.join_lt (j := j)
  rw [ht] at hheld hjoined hsize
  rw [ends_bind, ends_get, ends_bind, ends_set, ht]
  dsimp only [List.tail_cons, List.head?_cons, Option.bind_some]
  cases hdest : b.destination with
  | none =>
    have hjoins : joins (b :: bs) = joins bs := List.filterMap_cons_none hdest
    rw [hjoins] at hheld hjoined
    refine ends_pure.mpr ⟨hstep, ⟨hheld, hf.inv.notes, hjoined⟩, fun w W n κ i hw hκ hi => ?_⟩
    exact hf.passes.outOf ht hw hκ (by simp [hdest]) hi
  | some join =>
    have hjoins : joins (b :: bs) = join :: joins bs := List.filterMap_cons_some hdest
    rw [hjoins] at hheld hjoined hsize
    obtain ⟨⟨hgoes, hk⟩, hrest⟩ := List.forall_mem_cons.mp hjoined
    have hinv : Inv { t with breakables := bs } (f :: .single join :: L) :=
      ⟨hheld.perm (List.perm_middle.trans (.swap _ _ _)), hf.inv.notes, hrest⟩
    have hjoin : Passes o { t with breakables := bs } .empty (.single join) (pure .normal) :=
      passes_join (hsize join List.mem_cons_self) hgoes hk
    refine Ends.join (fun _ => jumped_chain join hinv)
      (fun hopen => ends_pure.mpr (jumped_closed join hinv (Bool.eq_false_iff.mpr hopen)))
      fun g u hg => ends_pure.mpr ?_
    obtain ⟨e, rfl, -⟩ := hg.closed
    refine ⟨hstep.trans hg.step, hg.inv.entryExit, ?_⟩
    rintro w W n κ _ hw hκ ⟨rfl, hi⟩
    have hw' := hg.step.later hw
    have htells : Tells o w n (κ .normal) join := hjoin.silent hw' hκ ⟨rfl, hi⟩
    refine hf.passes.outOf ht hw' hκ (fun j hj => ?_)
      (hg.tells (P := fun _ => True) hw (htells.mono (Nat.sub_le n 1)) rfl)
    exact Option.some.inj (hdest.symm.trans hj) ▸ htells

/-! ## Breaks -/

/-- Outside of all try statements, a jump only adjusts the frame. -/
theorem makes_finalizersTo (target : Option Nat) (frame : Int) :
    Makes (finalizersTo target frame []) := by
  refine .idle fun before => ?_
  have hrun : Makes (runFinalizers target [] .empty) := by
    unfold runFinalizers
    exact pieces.ite pieces.empty (pieces.stop fun _ _ _ => ends_inconsistent)
  have hend : Continues fun f => do
      modify fun s => { s with tries := before.tries, frame := before.frame }
      return f := fun env lo s L f hlo h hf => by
    rw [ends_bind, ends_modify, ends_pure]
    exact ⟨⟨.refl _, rfl, rfl⟩, h, hf⟩
  have hadjust : pieces.Continues fun f => chain f [adjustFrame frame] := pieces.chain (by simp)
  refine hrun.bind fun env lo s L f hlo h hf => ?_
  dsimp only
  split
  · exact (Continues.trans hadjust hend) env lo s L f hlo h hf
  · exact (Continues.trans pieces.pure hend) env lo s L f hlo h hf

theorem added_jumpTo (l : Landing) (hs : Inv s L) (hj : targetOf s.breakables label = some join) :
    Ends env (jumpTo [] l (gotoJoin join)) s (Added o s L .empty (pure (.broke label))) := by
  have hsplit : jumpTo [] l (gotoJoin join) =
      inOrder [finalizersTo l.finalizer l.frame []] >>= fun g => chain g [gotoJoin join] :=
    chain_append .empty [_] [_]
  have hfirst : Lays o (inOrder [finalizersTo l.finalizer l.frame []]) (pure .normal) :=
    .inOrder (.single (makes_finalizersTo _ _).lays)
  rw [hsplit]
  refine (hfirst env s L hs).bind fun f s1 hf => ?_
  refine (jumped_chain join hf.inv).mono fun g t hg => ⟨hf.step.trans hg.step, hg.inv, ?_⟩
  intro w W n κ i hw hκ hi
  have hW := ((hf.step.trans hg.step).later hw).targets label join hj
  refine hf.passes.silent (hg.step.later hw) hκ (hg.tells hw ?_ hi)
  exact (hκ.broke label join hW).mono (Nat.sub_le n 1)

theorem targetOf_reach (hb : bs.find? (·.label = label) = some b) : targetOf
    (replaceFirst (·.label = label) (fun b => { b with destination := some join }) bs) label =
      some join := by
  induction bs with
  | nil => cases hb
  | cons x bs ih =>
    rw [List.find?_cons] at hb
    unfold replaceFirst
    split at hb
    · rw [if_pos ‹_›, targetOf_cons, if_pos (by simpa using ‹decide _ = true›)]
    · rw [if_neg (by simp [*]), targetOf_cons, if_neg (by simpa using ‹decide _ = false›)]
      exact ih hb

/-- The first break to a label makes the join. -/
theorem reached (hs : Inv s L) (hj : Starts s (L ++ (joins s.breakables).map .single) join t)
    (hb : s.breakables.find? (·.label = label) = some b) (hdest : b.destination = none) :
    let bs := replaceFirst (·.label = label) (fun b => { b with destination := some join }) s.breakables
    Step s { t with breakables := bs } ∧ Inv { t with breakables := bs } L := by
  intro bs
  have hperm : (joins bs).Perm (join :: joins s.breakables) :=
    Assembly.destinations_reach hb hdest join
  have hold : Inv t (.single join :: L) := hs.quiet hj.quiet hj.held
  refine ⟨⟨hj.quiet.code, fun i _ => by rw [hj.quiet.sources], Assembly.later_reach hb hdest join⟩,
    ?_, hold.notes, fun j hmem => ?_⟩
  · exact hj.held.perm (List.perm_middle.symm.trans ((hperm.map Fragment.single).symm.append_left L))
  · rcases List.mem_cons.mp (hperm.mem_iff.mp hmem) with rfl | hmem
    · exact ⟨hj.goes, by rw [hj.quiet.sources, hs.notes _ hj.place.ge]⟩
    · exact hold.joined j (hj.quiet.breakables ▸ hmem)

theorem lays_breakTo (place : Position) (target : Tree.Ref) :
    Lays o (breakTo place target []) (pure (.broke target.id)) := by
  intro env s L hs
  unfold breakTo
  rw [ends_bind, ends_get]
  cases hb : s.breakables.find? (·.label = target.id) with
  | none => exact ends_malformed
  | some b =>
    dsimp only
    cases hdest : b.destination with
    | some join =>
      dsimp only
      rw [pure_bind]
      exact added_jumpTo b.landing hs (by rw [targetOf, hb]; exact hdest)
    | none =>
      refine (starts_emitBlock _ _ hs.held).bind fun join s1 hj => ?_
      rw [ends_bind, ends_modify, pure_bind, hj.quiet.breakables]
      obtain ⟨hstep, hinv⟩ := reached hs hj hb hdest
      exact (added_jumpTo b.landing hinv (targetOf_reach hb)).mono fun f t hf =>
        ⟨hstep.trans hf.step, hf.inv, hf.passes⟩

/-! ## Returns -/

theorem puts_return : Puts o (fun f => chain f [giveBack]) (pure .returned) := by
  have hsplit (f : Fragment) : chain f [giveBack] =
      popUse >>= fun value => (do let g ← perform (.giveBack value); append f g.closed) := by
    simp [chain, giveBack]
  simp only [hsplit]
  refine .idle fun value env s L f hs => (ends_cap hs.held rfl).mono ?_
  rintro g t ⟨hg, ht⟩
  have hq : Quiet s t := ⟨hg.grows, by rw [ht], by rw [ht]⟩
  refine ⟨hq.step, hs.quiet hq hg.held, fun w W n κ i hw hκ hi => ?_⟩
  refine (hg.through hw.code hi).mono ?_
  rintro _ rfl
  have hafter : w.code.after s.code.size = [] := by
    rw [Code.after, hw.code.op_eq hg.op rfl]
    rfl
  have hk : w.events s.code.size = [] := by
    rw [hw.events _ hg.lt, hq.sources, hs.notes _ le_rfl]
  change Tells o w n (κ .returned) s.code.size
  rw [hκ.returned]
  exact tells_stop hafter hk

theorem lays_giveBackThrough (place : Position) {e : Event} (hm : Lays o m (.meet [e] .normal)) :
    Lays o (giveBackThrough place [] m) (.meet [e] .returned) := by
  have hreturn : (Run.meet [e] .normal).andThen (pure .returned) = .meet [e] .returned := rfl
  rw [← hreturn]
  refine hm.bind fun env s L f hs => ?_
  split
  · rename_i hclosed
    have hopen : f.isOpen = false := by simpa [Fragment.isClosed] using hclosed
    refine (Idle.ends env s).bind ?_
    rintro _ t ⟨same, h⟩
    exact ends_pure.mpr ⟨(quiet_of_same same h).step, hs.idle same h, passes_closed hopen⟩
  · exact puts_return env s L f hs

end Jumps

/-! ## Statements -/

mutual

/-- Statements without try, switch and for-in statements, assertions and nested functions, in which
nothing is thrown. -/
def isStructured : Stmt → Bool
  | .absent | .empty _ | .breakOut .. => true
  | .block _ _ statements => areStructured statements
  | .expr _ value => !value.throws
  | .declare d => !d.throws
  | .branch _ condition yes no => !condition.throws && isStructured yes && isStructuredOption no
  | .whileDo _ condition body | .doWhile _ body condition => !condition.throws && isStructured body
  | .forLoop _ _ vars condition updates body =>
    vars.all (!·.throws) && condition.all (!·.throws) && updates.all (!·.throws) && isStructured body
  | .labeled _ _ _ body => isStructured body
  | .giveBack _ value => !Tree.throwsOption value
  | _ => false

def areStructured : List Stmt → Bool
  | [] => true
  | s :: rest => isStructured s && areStructured rest

def isStructuredOption : Option Stmt → Bool
  | none => true
  | some s => isStructured s

end

section Statements

variable (o : Oracle)

mutual

theorem lays_lowerStmt : ∀ s : Stmt, isStructured s = true →
    Lays o (lowerStmt [] s) (execute o.decide o.turns s)
  | .absent, _ => lays_empty
  | .empty _, _ => .balanced lays_empty
  | .block id place statements, h => by
    have hexit : Puts o (fun f => chain f [exitScope id]) (pure .normal) := puts_silent (by simp)
    exact .balanced ((Makes.lays pieces.made).bind ((puts_lowerBlock statements h).keep hexit))
  | .expr _ value, h => by
    have hvalue := discipline.lowerExpr value (allows_of_not_throws (by simpa [isStructured] using h))
    exact .balanced (.inOrder (puts_marked hvalue (fills_lowerExpr value)))
  | .declare d, h => lays_lowerDeclaration (by simpa [isStructured] using h)
  | .branch _ condition yes no, h => by
    simp only [isStructured, Bool.and_eq_true, Bool.not_eq_true'] at h
    exact .balanced (lays_branch h.1.1 (lays_lowerStmt yes h.1.2) (lays_lowerOptionStmt no h.2))
  | .whileDo _ condition body, h => by
    simp only [isStructured, Bool.and_eq_true, Bool.not_eq_true'] at h
    exact .balanced (lays_whileLoop h.1 (lays_lowerStmt body h.2))
  | .doWhile _ body condition, h => by
    simp only [isStructured, Bool.and_eq_true, Bool.not_eq_true'] at h
    exact .balanced (lays_doLoop h.1 (lays_lowerStmt body h.2))
  | .forLoop id place vars condition updates body, h => by
    simp only [isStructured, Bool.and_eq_true, List.all_eq_true, Bool.not_eq_true'] at h
    obtain ⟨⟨⟨hv, hc⟩, hu⟩, hbody⟩ := h
    refine .balanced (lays_forLoop id place hv (fun c hc' => ?_) hu (lays_lowerStmt body hbody))
    obtain ⟨rfl, -⟩ := Option.filter_eq_some_iff.mp hc'
    simpa using hc
  | .labeled id _ _ body, h => .balanced (lays_labeled id [] (lays_lowerStmt body h))
  | .breakOut place target, _ => .balanced (lays_breakTo place target)
  | .giveBack place value, h => .balanced <| lays_giveBackThrough place <|
    lays_marked (discipline.lowerOption value (allows_of_not_throws (by simpa [isStructured] using h)))
      (fills_lowerOption value)

theorem puts_lowerBlock : ∀ statements : List Stmt, areStructured statements = true →
    Puts o (fun f => lowerBlock [] f statements) (executeAll o.decide o.turns statements)
  | [], _ => puts_pure
  | s :: rest, h => by
    simp only [areStructured, Bool.and_eq_true] at h
    have hstep := ((lays_lowerStmt s h.1).append.trans (puts_lowerBlock rest h.2)).ifOpen
    have heq : (fun f => lowerBlock [] f (s :: rest)) = fun f => if f.isOpen then
        (lowerStmt [] s >>= append f) >>= fun f => lowerBlock [] f rest else pure f := by
      funext f
      rw [lowerBlock, Fragment.isClosed]
      cases f.isOpen <;> simp
    rwa [heq]

theorem lays_lowerOptionStmt : ∀ s : Option Stmt, isStructuredOption s = true →
    Lays o (lowerOptionStmt [] s) (executeOption o.decide o.turns s)
  | none, _ => lays_empty
  | some s, h => lays_lowerStmt s h

end

end Statements

end Flowgraph.Lowering.Trace
