import Flowgraph.Proofs.Lowering.Control
import Flowgraph.Proofs.Lowering.Trace.Pass

/-! # Branches and loops

Behind the sides of a branch control goes on as the outcome of the condition says. In a
loop it comes back to the join where the turns start, and each time that takes a step.
-/

namespace Flowgraph.Lowering.Trace

open Flowgraph.Graph (Code Event Fragment)
open Flowgraph.Tree (Expr)

section Loops

variable {o : Oracle} {env : Env} {s s' t : State} {w : Finished} {W : Nat → Option Nat}
  {L : List Fragment} {f g h : Fragment} {b : Branching} {c : Expr} {m m' : LowerM Fragment}
  {D E : Run Ending} {T : Tale} {κ : Ending → Tale} {n i e join : Nat} {P : Nat → Prop}

/-! ## Jumps -/

/-- From `s` on, a jump to `j` was put behind the fragment. -/
structure Jumped (s : State) (L : List Fragment) (f : Fragment) (j : Nat) (g : Fragment)
    (t : State) : Prop where
  step : Step s t
  inv : Inv t (g :: L)
  closed : ∃ e, g = ⟨some e, none⟩ ∧ (f.entry = some e ∨ f.entry = none)
  tells : ∀ {o w W n T P i}, Later t w W → Tells o w (n - 1) T j → w.code.Through g P i →
    w.code.Through f (Tells o w n T) i

theorem jumped_chain (j : Nat) (hs : Inv s (f :: L)) :
    Ends env (chain f [gotoJoin j]) s (Jumped s L f j) := by
  refine (ends_gotoJoin hs.held).mono ?_
  rintro g t ⟨hg, ht⟩
  have hq : Quiet s t := ⟨hg.grows, by rw [ht], by rw [ht]⟩
  obtain ⟨e, rfl, he⟩ := hg.closed
  refine ⟨hq.step, hs.quiet hq hg.held, ⟨e, rfl, he.imp_right And.left⟩, fun hw hj hi => ?_⟩
  refine through_capped hg hw.code ?_ hj hi
  rw [hw.events _ hg.lt, hq.sources]
  exact hs.notes _ le_rfl

/-- Closed code needs no jump. -/
theorem jumped_closed (j : Nat) (hs : Inv s (f :: L)) (hf : f.isOpen = false) :
    Jumped s L f j f s := by
  obtain ⟨e, rfl⟩ := Fragment.eq_of_closed hf
  exact ⟨.refl s, hs, ⟨e, rfl, .inl rfl⟩, fun _ _ hi => hi.of_closed rfl⟩

theorem Jumped.through {a : Nat} (ht : Jumped s L f join g t) (hf : f.entry = some a)
    (hw : Later t w W) (hj : Tells o w (n - 1) T join) : w.code.Through f (Tells o w n T) a := by
  obtain ⟨e, rfl, he⟩ := ht.closed
  obtain rfl : a = e := Option.some.inj (hf.symm.trans (he.resolve_right (by simp [hf])))
  exact ht.tells (P := fun _ => True) hw hj rfl

/-- A jump is a fragment of its own. -/
theorem jumped_gotoJoin (j : Nat) (hs : Inv s L) :
    Ends env (gotoJoin j) s (Jumped s L .empty j) := by
  have hempty : gotoJoin j = chain .empty [gotoJoin j] := by
    have (f : Fragment) : append .empty f = pure f := rfl
    simp [chain, this]
  rw [hempty]
  exact jumped_chain j ⟨hs.held.empty, hs.notes, hs.joined⟩

theorem added_makeJoin (o : Oracle) (hs : Inv s L) : Ends env makeJoin s fun join t =>
    Added o s L .empty (pure .normal) (.single join) t :=
  (starts_makeJoin hs.held).mono fun _ _ hj => hs.added_emits hj.toEmits

theorem Passes.silent (hf : Passes o s .empty f (pure .normal)) (hw : Later s w W)
    (hκ : Leaves o w W n κ) (hi : w.code.Through f (Tells o w n T) i) : Tells o w n T i :=
  hf hw (hκ.onward T) hi

theorem Inv.forget (hs : Inv s (f :: L)) : Inv s L := ⟨hs.held.forget, hs.notes, hs.joined⟩

theorem Inv.swap (hs : Inv s (f :: g :: L)) : Inv s (g :: f :: L) := hs.perm (.swap g f L)

theorem Inv.entryExit (hs : Inv s (f :: g :: L)) : Inv s (⟨f.entry, g.exit⟩ :: L) :=
  ⟨⟨hs.held.hands.entryExit, hs.held.bound⟩, hs.notes, hs.joined⟩

/-! ## The start of a turn -/

/-- From `s` on, the start of a turn was made. -/
structure Headed (o : Oracle) (s : State) (L : List Fragment) (join : Nat) (f g : Fragment)
    (t : State) : Prop where
  step : Step s t
  inv : Inv t (g :: L)
  entry : g.entry = some join
  closed : ∀ e, f = ⟨some e, none⟩ → g = ⟨some join, none⟩
  tells : ∀ {w W n T κ P i}, Later t w W → Leaves o w W n κ → w.code.Through g P i →
    (∀ j, w.code.Through f P j → Tells o w n T j) → Tells o w n T i

theorem headed_startingAt (hs : Inv s (.single join :: f :: L))
    (hj : Passes o s .empty (.single join) (pure .normal)) :
    Ends env (startingAt join [checkStackOverflow, pure f]) s (Headed o s L join f) := by
  have hsplit : startingAt join [checkStackOverflow, pure f] =
      chain (.single join) [checkStackOverflow] >>= fun g => append g f := by
    simp [startingAt, chain]
  rw [hsplit]
  have hcheck : Puts o (fun f => chain f [checkStackOverflow]) (pure .normal) :=
    puts_silent (by simp)
  refine ((hcheck env s _ _ hs).and entry_chain).bind ?_
  rintro g s1 ⟨hg, hentry⟩
  have hgj : g.entry = some join := hentry rfl
  refine hg.inv.append.mono fun h t hh => ?_
  have hhj : h.entry = some join := (hh.entry (by rw [Fragment.isEmpty, hgj]; rfl)).trans hgj
  refine ⟨hg.step.trans hh.step, hh.inv, hhj, fun e he => ?_, fun hw hκ hi hf => ?_⟩
  · obtain ⟨e', rfl⟩ := hh.closed e he
    rw [show e' = join from Option.some.inj hhj]
  · have hw1 := hh.step.later hw
    refine hj.silent (hg.step.later hw1) hκ (hg.passes hw1 (hκ.onward _) ?_)
    exact (hh.through hw hi).mono hf

/-- From `s` on, a loop was made. Under the condition `C`, what is told by a turn before `T` is
`T'`. -/
structure Looped (o : Oracle) (s : State) (L : List Fragment)
    (C : Finished → Nat → Tale → Tale → Prop) (g : Fragment) (t : State) : Prop where
  step : Step s t
  inv : Inv t (g :: L)
  closed : ∃ e, g = ⟨some e, none⟩
  tells : ∀ {w W n κ P i} {turn : Run Turn}, Later t w W → Leaves o w W n κ →
    (∀ m ≤ n, ∀ T, C w m T (turn.goOn (afterTurn T κ))) → w.code.Through g P i →
    Tells o w n ((turn.loop o.turns).goOn κ) i

theorem looped_gotoJoin {C : Finished → Nat → Tale → Tale → Prop} (hstep : Step s s')
    (hs : Inv s' L) (hC : ∀ {w W n κ T T'}, Later s' w W → Leaves o w W n κ →
      Tells o w (n - 1) T join → C w n T T' → Tells o w n T' join) :
    Ends env (gotoJoin join) s' (Looped o s L C) := by
  refine (jumped_gotoJoin join hs).mono fun g t hg => ?_
  obtain ⟨e, he, -⟩ := hg.closed
  refine ⟨hstep.trans hg.step, hg.inv, ⟨e, he⟩, fun hw hκ hturn hi => ?_⟩
  refine hg.tells hw (Tells.mono (tells_loop hκ.bound fun m hm T hT => ?_) (Nat.sub_le _ 1)) hi
  exact hC (hg.step.later hw) (hκ.mono hm) hT (hturn m hm T)

/-- Control comes from the end of the body to the start of the turn. -/
theorem looped_loopHeader (o : Oracle) {a : Nat} (hs : Inv s (f :: ⟨some e, none⟩ :: L)) (hf : f.entry = some a) :
    Ends env (loopHeader f ⟨some e, none⟩) s (Looped o s L fun w m T T' =>
      w.code.Through f (Tells o w m T) a → Tells o w m T' e) := by
  unfold loopHeader
  refine (added_makeJoin o hs).bind fun join s1 hj => ?_
  refine (jumped_chain join hj.inv.swap).bind fun f' s2 hf' => ?_
  refine (headed_startingAt hf'.inv.forget (hj.passes.mono hf'.step)).bind fun g s3 hg => ?_
  have hstep := hj.step.trans (hf'.step.trans hg.step)
  refine looped_gotoJoin hstep hg.inv.forget fun {w W n κ T T'} hw hκ hjoin hturn => ?_
  have hthrough := hf'.through hf (hg.step.later hw) hjoin
  have hgi : w.code.Through g (fun _ => True) join := by
    rw [hg.closed e rfl]
    rfl
  refine hg.tells hw hκ hgi ?_
  rintro _ rfl
  exact hturn hthrough

/-- The body starts with the turn, and control comes from its end to the start of the turn. -/
theorem looped_loopForever (o : Oracle) (hs : Inv s (f :: L)) :
    Ends env (loopForever f) s (Looped o s L fun w m T T' =>
      ∀ j, w.code.Through f (Tells o w m T) j → Tells o w m T' j) := by
  unfold loopForever
  refine (added_makeJoin o hs).bind fun join s1 hj => ?_
  have hsplit : startingAt join [checkStackOverflow, pure f, gotoJoin join] =
      startingAt join [checkStackOverflow, pure f] >>= fun g => chain g [gotoJoin join] :=
    chain_append _ [_, _] [_]
  rw [hsplit, bind_assoc]
  refine (headed_startingAt hj.inv hj.passes).bind fun g s2 hg => ?_
  refine (jumped_chain join hg.inv).bind fun g' s3 hg' => ?_
  have hstep := hj.step.trans (hg.step.trans hg'.step)
  refine looped_gotoJoin hstep hg'.inv.forget fun {w W n κ T T'} hw hκ hjoin hturn => ?_
  exact hg.tells (hg'.step.later hw) hκ (hg'.through hg.entry hw hjoin) hturn

/-! ## Turns -/

/-- A body whose end is not reached needs no jump back. -/
theorem Passes.closedLoop {turn : Run Turn} (hf : Passes o s .empty f D) (hclosed : f.isOpen = false)
    (hturn : ∀ T κ, ∃ T', turn.goOn (afterTurn T κ) = D.goOn (onward T' κ)) :
    Passes o s .empty f (turn.loop o.turns) := by
  intro w W n κ i hw hκ hi
  refine tells_loop hκ.bound fun m hm T _ => ?_
  obtain ⟨T', hT⟩ := hturn T κ
  rw [hT]
  exact hf hw ((hκ.mono hm).onward T') (hi.of_closed hclosed)

/-- A loop without a condition. -/
theorem added_loopForever {turn : Run Turn} (hf : Added o s L .empty D f s')
    (hturn : ∀ T κ, turn.goOn (afterTurn T κ) = D.goOn (onward T κ)) :
    Ends env (loopForever f) s' (Added o s L .empty (turn.loop o.turns)) := by
  refine (looped_loopForever o hf.inv).mono fun g t hg => ⟨hf.step.trans hg.step, hg.inv, ?_⟩
  intro w W n κ i hw hκ hi
  refine hg.tells hw hκ (fun m hm T j hj => ?_) hi
  rw [hturn]
  exact hf.passes (hg.step.later hw) ((hκ.mono hm).onward T) hj

/-- What is told behind both sides. -/
theorem Decides.choose {κ' : Ending → Tale} (hb : Decides o c b t) (he : b.code.entry = some e)
    (hw : Later t w W) (hκ : Leaves o w W n κ) (hκ' : Leaves o w W n κ')
    (hf : Passes o t (.single b.yes) f D) (hg : Passes o t (.single b.no) g E)
    (hyes : w.code.Through f (Tells o w n (κ .normal)) b.yes)
    (hno : w.code.Through g (Tells o w n (κ' .normal)) b.no) :
    Tells o w n ((Run.test o.decide (some c)).goOn fun x => if x then D.goOn κ else E.goOn κ') e := by
  refine hb.tells hw he fun x => ?_
  cases x with
  | true => exact hb.yes hw (hκ.onward (D.goOn κ)) (hf hw hκ hyes)
  | false => exact hb.no hw (hκ'.onward (E.goOn κ')) (hg hw hκ' hno)

theorem Decides.turn (hb : Decides o c b t) (he : b.code.entry = some e) (hw : Later t w W)
    (hκ : Leaves o w W n κ) (hf : Passes o t (.single b.yes) f D)
    (hyes : w.code.Through f (Tells o w n T) b.yes)
    (hno : w.code.Through (.single b.no) (Tells o w n (κ .normal)) b.no) :
    Tells o w n ((Run.testFirst o.decide (some c) D).goOn (afterTurn T κ)) e := by
  rw [goOn_testFirst]
  exact hb.choose he hw (hκ.onward T) hκ hf (.refl o t _) hyes hno

/-- Code for a body was put behind a block. -/
theorem added_startingAt (hm : Lays o m D) (hs : Inv s (.single i :: L)) :
    Ends env (startingAt i [m]) s fun f t => Added o s L (.single i) D f t ∧ f.entry = some i :=
  ((Puts.single hm env s L _ hs).and entry_chain).mono fun _ _ ⟨hf, hentry⟩ => ⟨hf, hentry rfl⟩

/-- A loop that is left at `no`, if control goes on from there. -/
structure Turning (o : Oracle) (s : State) (L : List Fragment) (f : Fragment) (no : Nat) (D : Run Ending)
    (g : Fragment) (t : State) : Prop where
  step : Step s t
  inv : Inv t (g :: .single no :: L)
  closed : ∃ e, g = ⟨some e, none⟩
  tells : ∀ {w W n κ P i}, Later t w W → Leaves o w W n κ →
    w.code.Through (.single no) (Tells o w n (κ .normal)) no → w.code.Through g P i →
    w.code.Through f (Tells o w n (D.goOn κ)) i

theorem Turning.exitingAt {no : Nat} (hg : Turning o s L f no D g t) :
    Added o s L f D (g.exitingAt no) t := by
  obtain ⟨e, rfl⟩ := hg.closed
  refine ⟨hg.step, hg.inv.entryExit, ?_⟩
  rintro w W n κ _ hw hκ ⟨rfl, hno⟩
  exact hg.tells (P := fun _ => True) hw hκ ⟨rfl, hno⟩ rfl

/-! ## For loops -/

theorem puts_forUpdates (fresh : Bool) {updates : List Expr} (hu : ∀ e ∈ updates, e.throws = false) :
    Puts o (forUpdates fresh updates) (.meet (updates.map .update) .normal) := by
  have hclone : Puts o (fun f => chain f (if fresh then [cloneFrame] else [])) (pure .normal) :=
    puts_silent (by cases fresh <;> simp)
  refine hclone.chain (puts_meet _ _ updates fun e he => ?_)
  exact puts_marked (discipline.lowerExpr e (allows_of_not_throws (hu e he))) (fills_lowerExpr e)

section Iteration

variable {before : Fragment} (hb : Tested o c s (before :: L) b s')
  (hf : Added o s' (.single b.no :: b.code :: before :: L) (.single b.yes) D f t)
  (hfe : f.entry = some b.yes)

include hb hf hfe

theorem turning_loopHeader :
    Ends env (chain before [loopHeader f b.code]) t
      (Turning o s L before b.no ((Run.testFirst o.decide (some c) D).loop o.turns)) := by
  obtain ⟨e, he⟩ := hb.decides.code
  have hinv := hf.inv
  rw [he] at hinv ⊢
  unfold chain
  refine (looped_loopHeader o (hinv.perm (.cons _ (.swap _ _ _))) hfe).bind fun g s1 hg => ?_
  obtain ⟨e', rfl⟩ := hg.closed
  have hinv1 : Inv s1 (before :: ⟨some e', none⟩ :: .single b.no :: L) := hg.inv.perm (by grind)
  refine hinv1.append.bind fun h t' hh => ends_pure.mpr ?_
  refine ⟨hb.step.trans (hf.step.trans (hg.step.trans hh.step)), hh.inv, hh.closed _ rfl,
    fun hw hκ hno hi => (hh.through hw hi).mono fun j hj => ?_⟩
  have hw1 := hh.step.later hw
  refine hg.tells hw1 hκ (fun m hm T hyes => ?_) hj
  exact (hb.decides.mono hf.step).turn (by rw [he]) (hg.step.later hw1) (hκ.mono hm) hf.passes hyes
    (hno.mono fun _ hj => hj.mono hm)

theorem turning_append (hclosed : f.isOpen = false) (E : Run Ending) :
    Ends env (append before b.code) t
      (Turning o s L before b.no ((Run.testFirst o.decide (some c) (D.andThen E)).loop o.turns)) := by
  obtain ⟨e, he⟩ := hb.decides.code
  have hinv := hf.inv
  rw [he] at hinv ⊢
  have hinv' : Inv t (before :: ⟨some e, none⟩ :: .single b.no :: L) := hinv.forget.perm (by grind)
  refine hinv'.append.mono fun h t' hh => ⟨hb.step.trans (hf.step.trans hh.step), hh.inv,
    hh.closed _ rfl, fun {w W n κ P i} hw hκ hno hi => (hh.through hw hi).mono ?_⟩
  rintro _ rfl
  refine tells_loop hκ.bound fun m hm T _ => ?_
  exact (hb.decides.mono hf.step).turn (by rw [he]) (hh.step.later hw) (hκ.mono hm)
    (hf.passes.trans (passes_closed hclosed)) (Code.through_closed hclosed hfe)
    (hno.mono fun _ hj => hj.mono hm)

end Iteration

theorem puts_forIterations (fresh : Bool) {condition : Option Expr} {updates : List Expr}
    (hc : ∀ c, tested condition = some c → c.throws = false)
    (hu : ∀ e ∈ updates, e.throws = false) (hm : Lays o m D) :
    Puts o (fun f => forIterations f fresh condition updates m)
      ((Run.testFirst o.decide (tested condition)
        (D.andThen (.meet (updates.map .update) .normal))).loop o.turns) := by
  intro env s L before hs
  have hupdates := puts_forUpdates (o := o) fresh hu
  unfold forIterations
  rw [show condition.filter (!isAlways ·) = tested condition from rfl]
  cases hcond : tested condition with
  | none =>
    refine (hm env s _ hs).bind fun f s1 hf => ?_
    split
    · refine (hupdates env s1 _ f hf.inv).bind fun f' s2 hf' => ?_
      unfold chain
      have hloop : Ends env (loopForever f') s2 (Added o s (before :: L) .empty
          ((Run.testFirst o.decide none (D.andThen _)).loop o.turns)) :=
        added_loopForever (hf.trans hf') fun _ _ => goOn_testFirst
      exact hloop.bind fun g s3 hg => hg.append.bind fun h t hh => ends_pure.mpr hh
    · rename_i hopen
      have hclosed := Bool.eq_false_iff.mpr hopen
      exact Added.append ⟨hf.step, hf.inv,
        (hf.passes.trans (passes_closed hclosed)).closedLoop hclosed fun T _ => ⟨T, goOn_testFirst⟩⟩
  | some c =>
    refine (tested_testing o (hc c hcond) hs).bind fun b s1 hb => ?_
    refine (added_startingAt hm hb.inv).bind ?_
    rintro f s2 ⟨hf, hentry⟩
    dsimp only
    rw [← bind_assoc]
    refine Ends.join (fun _ => ?_) (fun hopen => ?_) fun _ _ hg =>
      ends_pure.mpr (Turning.exitingAt hg)
    · refine ((hupdates env s2 _ f hf.inv).and entry_chain).bind ?_
      rintro f' s3 ⟨hf', hentry'⟩
      have hne : f.isEmpty = false := by
        rw [Fragment.isEmpty, hentry]
        rfl
      exact turning_loopHeader hb (hf.trans hf') ((hentry' hne).trans hentry)
    · exact turning_append hb hf hentry (Bool.eq_false_iff.mpr hopen) _

theorem lays_whileLoop {condition : Expr} (hc : condition.throws = false) (hm : Lays o m D) :
    Lays o (whileLoop condition m)
      ((Run.testFirst o.decide (tested (some condition)) D).loop o.turns) := by
  have hc' : ∀ c, tested (some condition) = some c → c.throws = false := fun c h => by
    rwa [← Option.some.inj (Option.filter_eq_some_iff.mp h).1]
  have hu : ∀ e ∈ ([] : List Expr), e.throws = false := by simp
  have hloop := lays_empty.bind (puts_forIterations false hc' hu hm).inLoop
  rw [pure_bind, pure_andThen, ← whileLoop_eq] at hloop
  rwa [List.map_nil, meet_nil, andThen_pure] at hloop

theorem lays_lowerDeclaration {v : Tree.Declaration} (hv : v.throws = false) :
    Lays o (lowerDeclaration v) (.meet [.declare v] .normal) :=
  lays_marked (discipline.declaration v (allows_of_not_throws hv)) (fills_declaration v)

theorem lays_forLoop {condition : Option Expr} {vars : List Tree.Declaration} {updates : List Expr}
    (node : Nat) (place : Position) (hv : ∀ v ∈ vars, v.throws = false)
    (hc : ∀ c, tested condition = some c → c.throws = false)
    (hu : ∀ e ∈ updates, e.throws = false) (hm : Lays o m D) :
    Lays o (forLoop node place vars condition updates m)
      ((Run.meet (vars.map .declare) .normal).andThen
        ((Run.testFirst o.decide (tested condition)
          (D.andThen (.meet (updates.map .update) .normal))).loop o.turns)) := by
  refine .idle fun scope => ?_
  have hvars : Puts o (fun f => chain f (vars.map lowerDeclaration))
      (.meet (vars.map .declare) .normal) := by
    rw [List.map_eq_flatMap]
    exact puts_meet Event.declare _ vars fun v hv' => .single (lays_lowerDeclaration (hv v hv'))
  have hfirst : Lays o (inOrder (enterScope node place :: vars.map lowerDeclaration))
      (.meet (vars.map .declare) .normal) :=
    .inOrder (.cons (Makes.lays pieces.made) hvars)
  exact hfirst.bind ((puts_forIterations _ hc hu hm).inLoop.keep (puts_silent (by simp)))

/-! ## Do loops -/

theorem lays_doLoop {condition : Expr} (hc : condition.throws = false) (hm : Lays o m D) :
    Lays o (doLoop m condition)
      ((Run.testLast o.decide (tested (some condition)) D).loop o.turns) := by
  refine .between fun env s L hs => (hm env s L hs).bind fun f s1 hf => ?_
  split
  · rename_i hclosed
    have hopen : f.isOpen = false := by simpa [Fragment.isClosed] using hclosed
    exact ends_pure.mpr ⟨hf.step, hf.inv, hf.passes.closedLoop hopen fun _ _ => ⟨_, goOn_testLast⟩⟩
  split
  · rename_i halways
    have hnone : tested (some condition) = none := by simp [tested, halways]
    rw [hnone]
    exact added_loopForever hf fun _ _ => goOn_testLast
  rename_i halways
  have hsome : tested (some condition) = some condition := by simp [tested, halways]
  rw [hsome]
  refine (tested_testing o hc hf.inv).bind fun b s2 hb => ?_
  obtain ⟨e, he⟩ := hb.decides.code
  have hinv2 : Inv s2 (f :: ⟨some e, none⟩ :: .single b.yes :: .single b.no :: L) := by
    have := hb.inv
    rw [he] at this
    exact this.perm (by grind)
  rw [he]
  refine hinv2.append.bind fun h s3 hh => ?_
  obtain ⟨e', rfl⟩ := hh.closed _ rfl
  refine (looped_loopHeader o hh.inv.swap rfl).bind fun g t hg => ends_pure.mpr (Turning.exitingAt ?_)
  refine ⟨hf.step.trans (hb.step.trans (hh.step.trans hg.step)), hg.inv, hg.closed, ?_⟩
  intro w W n κ P i hw hκ hno hi
  refine hg.tells hw hκ (fun m hm T hyes => ?_) hi
  have hw3 := hg.step.later hw
  have hw2 := hh.step.later hw3
  have hκ' := hκ.mono hm
  rw [goOn_testLast]
  refine hf.passes (hb.step.later hw2) (hκ'.onward _) ?_
  refine (hh.through (P := fun _ => True) hw3 rfl).mono ?_
  rintro _ rfl
  exact hb.decides.choose (by rw [he]) hw2 (hκ'.onward T) hκ' (.refl o s2 _) (.refl o s2 _) hyes
    (hno.mono fun _ hj => hj.mono hm)

/-! ## Branches -/

theorem lays_branch {condition : Expr} (hc : condition.throws = false) (hm : Lays o m D)
    (hm' : Lays o m' E) : Lays o (branch condition m m') (do
      if ← Run.test o.decide (some condition) then D else E) := by
  intro env s L hs
  refine (tested_testing o hc hs).bind fun b s1 hb => ?_
  refine (added_startingAt hm hb.inv).bind ?_
  rintro f s2 ⟨hf, hfe⟩
  refine (added_startingAt hm' hf.inv.swap).bind ?_
  rintro g s3 ⟨hg, hge⟩
  obtain ⟨e, he⟩ := hb.decides.code
  have hstep := hb.step.trans (hf.step.trans hg.step)
  have hinv : Inv s3 (⟨some e, none⟩ :: f :: g :: L) := by
    have := hg.inv
    rw [he] at this
    exact this.perm (by grind)
  have hb3 := hb.decides.mono (hf.step.trans hg.step)
  have hrun (κ : Ending → Tale) :
      (do if ← Run.test o.decide (some condition) then D else E : Run Ending).goOn κ =
        (Run.test o.decide (some condition)).goOn fun x => if x then D.goOn κ else E.goOn κ := by
    rw [goOn_bind]
    congr 1
    funext x
    cases x <;> rfl
  have hchoose {w W n κ} (hw : Later s3 w W) (hκ : Leaves o w W n κ)
      (hyes : w.code.Through f (Tells o w n (κ .normal)) b.yes)
      (hno : w.code.Through g (Tells o w n (κ .normal)) b.no) :
      Tells o w n ((do if ← Run.test o.decide (some condition) then D else E : Run Ending).goOn κ) e := by
    rw [hrun]
    exact hb3.choose (by rw [he]) hw hκ hκ (hf.passes.mono hg.step) hg.passes hyes hno
  rw [he]
  split
  · refine (added_makeJoin o hinv).bind fun join s4 hj => ?_
    have hinv4 : Inv s4 (f :: g :: ⟨some e, none⟩ :: .single join :: L) := hj.inv.perm (by grind)
    refine (jumped_chain join hinv4).bind fun f' s5 hf' => ?_
    refine (jumped_chain join hf'.inv.forget).bind fun g' t hg' => ends_pure.mpr ?_
    have hstep' := hf'.step.trans hg'.step
    refine ⟨hstep.trans (hj.step.trans hstep'), hg'.inv.forget.entryExit, ?_⟩
    rintro w W n κ _ hw hκ ⟨rfl, hi⟩
    have hw4 := hstep'.later hw
    have hjoin : Tells o w (n - 1) (κ .normal) join :=
      (hj.passes.silent hw4 hκ ⟨rfl, hi⟩).mono (Nat.sub_le n 1)
    exact hchoose (hj.step.later hw4) hκ (hf'.through hfe (hg'.step.later hw) hjoin)
      (hg'.through hge hw hjoin)
  · rename_i hclosed
    refine ends_pure.mpr ⟨hstep, hinv.entryExit.swap.forget, fun w W n κ i hw hκ hi => ?_⟩
    obtain rfl : i = e := hi.entry rfl
    exact hchoose hw hκ (hi.leaving hfe) (Code.through_closed hclosed hge)
  · rename_i hclosed _
    have hinv' : Inv s3 (⟨some e, none⟩ :: g :: f :: L) := hinv.perm (.cons _ (.swap _ _ _))
    refine ends_pure.mpr ⟨hstep, hinv'.entryExit.swap.forget, fun w W n κ i hw hκ hi => ?_⟩
    obtain rfl : i = e := hi.entry rfl
    exact hchoose hw hκ (Code.through_closed hclosed hfe) (hi.leaving hge)
  · rename_i hclosed hclosed'
    have hinv' : Inv s3 (⟨some e, none⟩ :: L) := (hinv.perm (by grind) : Inv s3 (f :: g :: _ :: L)).forget.forget
    refine ends_pure.mpr ⟨hstep, hinv', fun w W n κ i hw hκ hi => ?_⟩
    obtain rfl : i = e := hi.entry rfl
    exact hchoose hw hκ (Code.through_closed hclosed hfe) (Code.through_closed hclosed' hge)

end Loops

end Flowgraph.Lowering.Trace
