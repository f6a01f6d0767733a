import Flowgraph.Lowering.Attempt
import Flowgraph.Proofs.Lowering.Assembly.Jump

/-! # Handlers and finalizers

A try statement opens a new region for its body and pays for it with a handler in
the region around the statement. A handler starts with an empty stack, so nothing that
was computed before is needed there. Nothing but the root jumps to it, so that it can
have any rank. Clauses and finalizers stay in its region, and all of it comes before
the join after the statement. Each copy of a finalizer is code of its own.
-/

namespace Flowgraph.Lowering.Assembly

open Flowgraph.Graph (Fragment Op)
open Flowgraph.Tree (CatchClause)

variable {o : Bool} {α : Type} {env : Env} {s s' s'' : State} {γ γ' γ'' : Notes} {P P' : Kept}
  {L : List Fragment} {m : LowerM Fragment} {a : Note} {p q r : Mark} {f : Fragment} {c : Caught}
  {t : Nat} {cs : List (CatchClause × LowerM Fragment)}

/-- The try statement has no handler yet. -/
def Kept.owe (t : Nat) (P : Kept) : Kept := { P with owed := t :: P.owed }

theorem Room.owe (h : Room o true env P p q) (t : Nat) : Room o true env (P.owe t) p q := { h with }

theorem Ready.allocate (h : Ready o s γ P L) :
    Ready o { s with nextTry := s.nextTry + 1 } γ (P.owe s.nextTry) L := by
  have hle := Nat.le_succ s.nextTry
  obtain ⟨blocks, rethrows, founded, table, tries, caught, labels, cases⟩ := h.inv.regions
  refine { h with inv := { h.inv with regions :=
    { blocks := fun i e hi he => (blocks i e hi he).imp_right (·.mono hle)
      rethrows := fun i a b t ho => (rethrows i a b t ho).mono hle
      founded, table := ?_
      tries := tries.imp_right fun tries t ht => (tries t ht).mono hle
      caught := caught.imp_right fun caught c hc => (caught c hc).mono hle
      labels := labels.imp fun _ _ hb => hb.grow hle (.refl _ _)
      cases := cases.imp fun _ _ ht k => (ht k).grow hle (.refl _ _) } } }
  change List.Perm (_ ++ asHandled (s.nextTry :: P.owed)) (asHandled (List.range (s.nextTry + 1)))
  rw [List.range_succ]
  simp only [asHandled, List.map_cons, List.map_append, List.map_nil]
  exact (List.perm_middle.trans (List.Perm.cons _ table)).trans (List.perm_append_singleton _ _).symm

theorem Ready.pay {i : Nat} (h : Ready o s γ (P.owe t) L) (hi : Placed Op.isHandler s.code γ p i)
    (ht : handled s.code i = some (t : Int)) :
    Ready o { s with handlers := s.handlers ++ [i] } γ P L := by
  have htable := h.inv.regions.table
  refine { h with inv := { h.inv with
    handlers := fun k hk => ?_, regions := { h.inv.regions with table := ?_ } } }
  · rcases List.mem_append.mp hk with hk | hk
    · exact h.inv.handlers k hk
    · obtain rfl := List.mem_singleton.mp hk
      exact ⟨hi.pos, hi.lt, hi.kind, by rw [hi.note]⟩
  · simp only [Kept.owe, asHandled, List.map_cons, List.map_append, List.map_nil, List.append_assoc,
      List.cons_append, List.nil_append, ht] at htable ⊢
    exact htable

/-! ## The body -/

theorem built_enterTry (h : Ready o s γ P L) (room : Room o true env P p q) (ht : IsTry s.nextTry t) :
    Ends env (enterTry t) s fun f s' => ∃ γ', Built o s γ P L p (q.inRegion t) f s' γ' := by
  obtain ⟨p1, room1, room2⟩ := room.split
  have hsave : Makes o (do storeLocal (← savedFrame)) 1 1 := made_passive inferInstance
  have hframes : Lowers o true (inOrder [loadFrameVariable, do storeLocal (← savedFrame), drop]) :=
    Makes.lowers inferInstance
  unfold enterTry
  refine ends_silent fun uses s0 same => ?_
  refine Ends.join (M := fun f s1 => ∃ γ1, Built o s0 γ P L p p1 f s1 γ1) (fun _ => ?_) (fun _ => ?_) ?_
  · exact hframes env s0 γ P L p p1 (h.same same) room1
  · exact lowers_empty env s0 γ P L p p1 (h.same same) room1
  rintro f s1 ⟨γ1, h1⟩
  replace h1 := h1.after (same.calm γ).pass
  refine (joined_emitBlock (p := q.inRegion t) h1.ready rfl (.inr (ht.mono h1.step.nextTry))).bind ?_
  rintro entry s2 ⟨γ2, h2, -⟩
  refine (built_jump h2.ready.swap (h1.spans.step h2.step) (h2.placed.before room2.lt.2)
    (q.inRegion t)).bind ?_
  rintro g s3 ⟨γ3, h3⟩
  exact ends_pure.mpr ⟨γ3, (h1.toPass.trans h2.toPass).trans h3.toPass, h3.ready.exitingAt,
    h3.spans.leavingAt (h2.placed.step h3.step)⟩

theorem built_inTry (hm : Lowers o true m) (h : Ready o s γ P L) (room : Room o true env P p q)
    (ht : IsTry s.nextTry t) :
    Ends env (inTry t m) s fun f s' =>
      ∃ γ', Built o s γ P L (p.inRegion t) (q.inRegion t) f s' γ' := by
  unfold inTry
  refine ends_silent fun _ s1 same1 => ?_
  have hr := h.same same1
  obtain ⟨htries, hall⟩ := hr.inv.regions.tries
  rw [ends_bind, ends_modify, htries]
  have hr1 := hr.withTries s1.frame
    (List.forall_mem_cons.mpr ⟨ht.mono same1.nextTry.ge, hall⟩)
  have room1 : Room o true { env with within := t :: env.within }
      { P with tries := (t : Int) :: P.tries } (p.inRegion t) (q.inRegion t) :=
    ⟨⟨rfl, room.lt.2⟩, room.labels, room.checks, fun _ => rfl, fun _ => rfl⟩
  refine ends_bind.mpr (ends_withReader.mpr ((hm _ _ γ _ L _ _ hr1 room1).mono ?_))
  rintro f s2 ⟨γ2, h2⟩
  rw [ends_bind, ends_modify, h2.ready.inv.regions.tries.1]
  have hr3 := h2.ready.withTries s2.frame fun u hu => (hall u hu).mono h2.step.nextTry
  have hp1 : Pass s1 γ { s1 with tries := (t : Int) :: P.tries } γ :=
    .of_around ⟨.refl _ _, le_rfl⟩ rfl
  have hp2 : Pass s2 γ2 { s2 with tries := P.tries } γ2 := .of_around ⟨.refl _ _, le_rfl⟩ rfl
  have hp := (((same1.calm γ).pass.trans hp1).trans h2.toPass).trans hp2
  exact ends_silent fun _ s3 same3 => ends_pure.mpr ⟨γ2, hp.trans (same3.calm γ2).pass,
    hr3.same same3, h2.spans.grow (same3.step γ2).toGrows⟩

/-! ## Handlers -/

theorem handled_emitBlock {guards : List String} {u r : Int} {x y : Option Scoping.Variable} :
    Ends env (emitBlock (.handler u guards x y) r) s fun i s' => handled s'.code i = some u := by
  rw [ends_emitBlock]
  unfold handled
  rw [Graph.Code.op_push_size]

/-- The handler is in the region around its try statement and pays for it. -/
theorem built_enterHandler (guards : List String) (h : Ready o s γ (P.owe t) L)
    (room : Room o true env P p q) (hp : p.region < t) (hc : c.tryIndex = t) :
    Ends env (enterHandler c guards) s fun f s' => ∃ γ', Built o s γ P L p q f s' γ' := by
  have hstarts : Starts s.nextTry Op.isHandler
      (.handler c.tryIndex guards (some c.exception) (some c.stackTrace)) p.region p :=
    ⟨fun _ => rfl, fun _ => rfl, rfl, isRegion_tries h.inv (room.state rfl),
      by rintro _ _ _ _ ⟨⟩; exact hc ▸ hp⟩
  have hload : Makes o (do loadLocal (← savedFrame)) 0 1 := made_passive inferInstance
  unfold enterHandler currentTry
  rw [ends_bind, ends_bind, ends_get, ends_pure, h.inv.regions.tries.1]
  change Ends env (emitBlock _ (P.tries.headD Graph.noTry) >>= _) s _
  rw [room.state rfl]
  refine ((begun_emitBlock hstarts h.inv).and handled_emitBlock).bind ?_
  rintro entry s1 ⟨⟨γ1, h1⟩, hhandled⟩
  have hplaced := h1.placed
  rw [h1.values, h.empty] at hplaced
  rw [ends_bind, ends_modify]
  have hr1 : Ready o s1 γ1 (P.owe t) (.single entry :: L) := h.calm h1.toCalm h1.inv
  have hr2 := hr1.pay hplaced (hc ▸ hhandled)
  have hp : Pass s γ { s1 with handlers := s1.handlers ++ [entry] } γ1 :=
    .of_around { h1.step with } h1.around
  refine ends_silent fun uses s3 same => ?_
  have hrest : Follows o true fun f => chain f
      (if uses then [do loadLocal (← savedFrame), storeFrameVariable] else []) := by
    split
    · exact Continues.follows inferInstance
    · exact follows_pure
  refine (built_startingAt hrest (hr2.same same) room (hplaced.grow (same.step γ1).toGrows)).mono ?_
  rintro f s4 ⟨γ4, h4⟩
  exact ⟨γ4, h4.after (hp.trans (same.calm γ1).pass)⟩

theorem built_rethrowHere (h : Ready o s γ P L) (room : Room o true env P p q)
    (hc : IsTry s.nextTry c.tryIndex) :
    Ends env (rethrowHere c) s fun f s' => ∃ γ', Built o s γ P L p q f s' γ' := by
  refine (made_rethrowing [loadLocal c.exception, pushArgument, loadLocal c.stackTrace, pushArgument]
    h.inv room hc).bind ?_
  rintro f s1 ⟨γ1, h1⟩
  have hdrop : Makes o drop 1 0 := inferInstance
  refine (hdrop.made env s1 γ1 P _ p q h1.inv room).bind ?_
  rintro _ s2 ⟨γ2, h2⟩
  have hm := h1.trans h2
  have hsub : values s2 ⊆ values s1 := by
    have := h2.effect.rest
    rw [List.drop_zero] at this
    exact this ▸ List.drop_subset 1 _
  rw [h.empty] at h1
  exact ends_pure.mpr ⟨γ2, .of_made h ⟨h2.inv.forget, hm.step, hm.effect,
    (h1.spans.step h2.step).weaken ⟨hsub, le_rfl⟩, hm.around⟩⟩

/-! ## Clauses -/

theorem Ready.withCaught {caught : List Caught} (h : Ready o s γ P L)
    (hc : ∀ c ∈ caught, IsTry s.nextTry c.tryIndex) :
    Ready o { s with caught } γ { P with caught } L :=
  { h with inv := { h.inv with regions := { h.inv.regions with caught := ⟨rfl, hc⟩ } } }

theorem built_handling (hm : Lowers o true m) (h : Ready o s γ P L) (room : Room o true env P p q)
    (hc : IsTry s.nextTry c.tryIndex) :
    Ends env (do
      modify fun s => { s with caught := c :: s.caught }
      let f ← m
      modify fun s => { s with caught := s.caught.tail }
      return f) s fun f s' => ∃ γ', Built o s γ P L p q f s' γ' := by
  obtain ⟨hcaught, hall⟩ := h.inv.regions.caught
  rw [ends_bind, ends_modify, hcaught]
  have hr := h.withCaught (List.forall_mem_cons.mpr ⟨hc, hall⟩)
  refine (hm env _ γ _ L p q hr { room with }).bind ?_
  rintro f s1 ⟨γ1, h1⟩
  rw [ends_bind, ends_modify, h1.ready.inv.regions.caught.1, ends_pure]
  have hp0 : Pass s γ { s with caught := c :: P.caught } γ := .of_around ⟨.refl _ _, le_rfl⟩ rfl
  have hp1 : Pass s1 γ1 { s1 with caught := P.caught } γ1 := .of_around ⟨.refl _ _, le_rfl⟩ rfl
  exact ⟨γ1, (hp0.trans h1.toPass).trans hp1,
    h1.ready.withCaught fun c hc => (hall c hc).mono h1.step.nextTry, h1.spans⟩

theorem built_clauseCode (clause : CatchClause) (hm : Lowers o true m) (h : Ready o s γ P L)
    (room : Room o true env P p q) (hc : IsTry s.nextTry c.tryIndex) :
    Ends env (clauseCode c clause m) s fun f s' => ∃ γ', Built o s γ P L p q f s' γ' := by
  obtain ⟨p1, room1, room2⟩ := room.split
  obtain ⟨p2, room2, room3⟩ := room2.split
  have hbind (v : Scoping.Variable) (d : Tree.Declaration) : Follows o true fun f => chain f
      [loadLocal v, do storeVariable (← lookupVariable clause.place d.ref), drop] := by
    have : Makes o (do storeVariable (← lookupVariable clause.place d.ref)) 1 1 :=
      made_passive inferInstance
    exact Continues.follows inferInstance
  unfold clauseCode inOrder
  rw [chain_append]
  refine Ends.bind (lowers_inOrder (follows_append (follows_append ?_ ?_) ?_) env s γ P L p p1 h
    room1) ?_
  · exact Continues.follows inferInstance
  · cases clause.exception with
    | none => exact follows_pure
    | some d => exact hbind _ d
  · cases clause.stackTrace with
    | none => exact follows_pure
    | some d => exact hbind _ d
  rintro f s1 ⟨γ1, h1⟩
  rw [← List.singleton_append, chain_append, chain_one]
  refine (built_behind h1.spans (built_handling hm h1.ready room2 (hc.mono h1.step.nextTry))).bind ?_
  rintro g s2 ⟨γ2, h2⟩
  have hexit : Follows o true fun f => chain f [exitScope clause.id] := Continues.follows inferInstance
  refine (hexit env s2 γ2 P L p p2 q g h2.ready room3 h2.spans).mono ?_
  rintro k s3 ⟨γ3, h3⟩
  exact ⟨γ3, h3.after (h1.toPass.trans h2.toPass)⟩

/-- Each clause comes behind its guard, and the next guard behind the clause. -/
theorem built_clauses {after : Nat} {current : Fragment} {reached : Bool}
    (hcs : ∀ c ∈ cs, Lowers o true c.2)
    (h : Ready o s γ P (current :: L)) (room : Room o true env P p q) (hp : r ≤ p)
    (hc : IsTry s.nextTry c.tryIndex) (hafter : Ahead Op.isJoin s.code γ q false after)
    (hcurrent : Spans o s.code γ r current p) :
    Ends env (clauses c after cs current reached) s fun x s' =>
      ∃ γ', Built o s γ P L r q x.1 s' γ' := by
  induction cs generalizing s γ current reached p with
  | nil => exact ends_pure.mpr ⟨γ, .refl s γ, h, hcurrent.until room.le⟩
  | cons clause cs ih =>
    obtain ⟨clause, body⟩ := clause
    obtain ⟨p1, room1, room2⟩ := room.split
    obtain ⟨p2, room2, room3⟩ := room2.split
    have hp2 := (hp.trans room1.le).trans room2.le
    unfold clauses
    refine (built_clauseCode clause (hcs _ List.mem_cons_self) h room2 hc).bind ?_
    rintro handler s1 ⟨γ1, h1⟩
    refine Ends.join (M := fun g s' => ∃ γ', Built o s γ P (current :: L) p1 p2 g s' γ') (fun _ => ?_)
      (fun _ => h1.pure) ?_
    · refine (built_jump h1.ready (h1.spans.until room3.le) (hafter.step h1.step) p2).mono ?_
      rintro g s2 ⟨γ2, h2⟩
      exact ⟨γ2, h2.after h1.toPass⟩
    rintro handler s2 ⟨γ2, h2⟩
    have hcurrent2 := hcurrent.step h2.step
    have hnext : ∀ current reached s3 γ3, Built o s2 γ2 P L r p2 current s3 γ3 →
        Ends env (clauses c after cs current reached) s3 fun x s' =>
          ∃ γ', Built o s γ P L r q x.1 s' γ' := by
      intro current reached s3 γ3 h3
      have hp3 := h2.toPass.trans h3.toPass
      refine (ih (fun c hc => hcs c (List.mem_cons_of_mem _ hc)) h3.ready room3 hp2
        (hc.mono hp3.step.nextTry) (hafter.step hp3.step) h3.spans).mono ?_
      rintro x s4 ⟨γ4, h4⟩
      exact ⟨γ4, h4.after hp3⟩
    split
    · refine (built_append h2.ready.swap (hcurrent2.until room1.le) h2.spans).bind ?_
      rintro current s3 ⟨γ3, h3⟩
      exact hnext current _ s3 γ3 h3
    · obtain ⟨p0, room0, room1⟩ := room1.split
      have htest : Continues o (fun f => chain f [loadLocal c.exception, pushArgument,
          typeConstant clause.guard, pushArgument, boolConstant false, pushArgument,
          instanceCall Symbols.instanceOfFunction 3 []]) 0 1 := inferInstance
      have hr2 := h2.ready.swap
      refine (htest.made env s2 γ2 P _ r p p0 current hr2.inv room0 ?_).bind ?_
      · rw [hr2.empty]
        exact hcurrent2
      rintro f s3 ⟨γ3, h3⟩
      refine (branched_branchIfTrue h3.inv room1).bind ?_
      rintro b s4 ⟨γ4, h4⟩
      refine (h4.behind h3).bind ?_
      rintro tests s5 ⟨γ5, h5⟩
      replace h5 := Forked.of_branched hr2.forget h5
      have hr5 : Ready o s5 γ5 P (tests :: .single b.yes :: handler :: .single b.no :: L) :=
        h5.ready.perm (by grind)
      unfold startingAt
      rw [chain_pure]
      refine Ends.bind ((built_append hr5.forget h5.yes.spans (h2.spans.step h5.step)).bind
        fun _ _ ⟨_, h6⟩ => h6.pure) ?_
      rintro _ s6 ⟨γ6, h6⟩
      have hno := ((h5.no.step h6.step).spans (o := o)).from (hp.trans (room0.trans room1).le)
      exact hnext _ _ s6 γ6 ⟨h5.toPass.trans h6.toPass, h6.ready.forget, hno.until room2.le⟩

/-! ## Try statements -/

/-- From `s` on, code was made that is not in hand. -/
structure Stepped (ordered : Bool) (s : State) (γ : Notes) (P : Kept) (L : List Fragment) (s' : State)
    (γ' : Notes) : Prop extends Pass s γ s' γ' where
  ready : Ready ordered s' γ' P L

theorem Stepped.after (h : Stepped o s' γ' P L s'' γ'') (hp : Pass s γ s' γ') :
    Stepped o s γ P L s'' γ'' := ⟨hp.trans h.toPass, h.ready⟩

theorem ends_caughtHere : Ends env (caughtHere t) s fun c s' => c.tryIndex = t ∧ Same s s' := by
  unfold caughtHere
  refine ends_silent fun _ s1 same1 => ends_silent fun _ s2 same2 => ends_silent fun _ s3 same3 => ?_
  exact ends_pure.mpr ⟨rfl, (same1.trans same2).trans same3⟩

/-- The code of the handlers is reached from their entry alone. -/
theorem stepped_inHandler {k : Caught → Fragment → LowerM α} (guards : List String)
    (h : Ready o s γ (P.owe t) L) (room : Room o true env P p q) (ht : IsTry s.nextTry t)
    (hp : p.region < t) (hk : ∀ c f s' γ', Built o s γ P L p q f s' γ' →
      IsTry s'.nextTry c.tryIndex →
      Ends env (k c f) s' fun _ s'' => ∃ γ'', Stepped o s' γ' P L s'' γ'') :
    Ends env (inHandler do
      let caught ← caughtHere t
      let handler ← enterHandler caught guards
      k caught handler) s fun _ s' => ∃ γ', Stepped o s γ P L s' γ' := by
  refine ends_silent fun _ s1 same1 => Ends.bind (M := fun _ s' => ∃ γ', Stepped o s γ P L s' γ') ?_ ?_
  · refine ends_caughtHere.bind ?_
    rintro c s2 ⟨hc, same2⟩
    have same := same1.trans same2
    refine (built_enterHandler guards (h.same same) room hp hc).bind ?_
    rintro f s3 ⟨γ3, h3⟩
    replace h3 := h3.after (same.calm γ).pass
    refine (hk c f s3 γ3 h3 (hc ▸ ht.mono h3.step.nextTry)).mono ?_
    rintro _ s4 ⟨γ4, h4⟩
    exact ⟨γ4, h4.after h3.toPass⟩
  · rintro _ s2 ⟨γ2, h2⟩
    refine ends_silent fun _ s3 same3 => ends_pure.mpr ⟨γ2, ?_, h2.ready.same same3⟩
    exact h2.toPass.trans (same3.calm γ2).pass

theorem stepped_rethrow {x : α} (h : Ready o s γ P (f :: L)) (room : Room o true env P p q)
    (hc : IsTry s.nextTry c.tryIndex) (sp : Spans o s.code γ a f p) :
    Ends env (do
      if f.isOpen then
        let _ ← chain f [rethrowHere c]
      return x) s fun _ s' => ∃ γ', Stepped o s γ P L s' γ' := by
  split
  · rw [chain_one]
    refine (built_behind sp (built_rethrowHere h room hc)).bind ?_
    rintro _ s1 ⟨γ1, h1⟩
    exact ends_pure.mpr ⟨γ1, h1.toPass, h1.ready.forget⟩
  · exact ends_pure.mpr ⟨γ, .refl s γ, h.forget⟩

/-- The code around the handlers of a try. -/
structure Guarding (ordered : Bool) (s : State) (γ : Notes) (P : Kept) (L : List Fragment)
    (p r q : Mark) (f : Fragment) (after : Nat) (s' : State) (γ' : Notes) : Prop
    extends Pass s γ s' γ' where
  ready : Ready ordered s' γ' P (f.closed :: .single after :: L)
  spans : Spans ordered s'.code γ' p f r
  after : Placed Op.isJoin s'.code γ' q after

theorem Guarding.done {after : Nat} (h : Guarding o s γ P L p r q f after s' γ') (hpq : p ≤ q)
    (reached : Bool) :
    Built o s γ P L p q (afterTry f after reached) s' γ' := by
  unfold afterTry
  split
  · exact ⟨h.toPass, h.ready.exitingAt, h.spans.exitingAt h.after (note_le hpq)⟩
  · exact ⟨h.toPass, h.ready.swap.forget, h.spans.closed (note_le hpq)⟩

theorem Guarding.then {after : Nat} (h : Guarding o s γ P L p r q f after s' γ')
    (hp : Pass s' γ' s'' γ'')
    (hr : Ready o s'' γ'' P' (f.closed :: .single after :: L)) :
    Guarding o s γ P' L p r q f after s'' γ'' :=
  ⟨h.toPass.trans hp, hr, h.spans.step hp.step, h.after.step hp.step⟩

theorem ends_leave {after : Nat} {k : LowerM α} {Q : α → State → Prop} (h : Ready o s γ P (f :: L))
    (sp : Spans o s.code γ a f p) (hafter : Ahead Op.isJoin s.code γ p false after)
    (hk : ∀ s' γ', Pass s γ s' γ' → Ready o s' γ' P (f.closed :: L) → Ends env k s' Q) :
    Ends env (do
      if f.isOpen then
        let _ ← chain f [gotoJoin after]
      k) s Q := by
  dsimp only
  split
  · refine (Ends.and (built_jump h sp hafter p) entry_chain).bind ?_
    rintro g s1 ⟨⟨γ1, h1⟩, hentry⟩
    exact hk s1 γ1 h1.toPass (h1.ready.closed.sameEntry hentry rfl)
  · exact hk s γ (.refl s γ) h.closed

/-- A try statement begins with the way into its body, and the join after it is made early. -/
theorem ends_begun {k : Nat → Fragment → Nat → LowerM α} {Q : α → State → Prop} {p1 : Mark}
    (h : Ready o s γ P L) (room1 : Room o true env P p p1) (room : Room o true env P p q)
    (hk : ∀ entry after s' γ', Pass s γ s' γ' →
      Ready o s' γ' (P.owe s.nextTry) (entry :: .single after :: L) → IsTry s'.nextTry s.nextTry →
      Spans o s'.code γ' p entry (p1.inRegion s.nextTry) → Placed Op.isJoin s'.code γ' q after →
      Ends env (k s.nextTry entry after) s' Q) :
    Ends env (do
      let t ← allocateTry
      let entry ← enterTry t
      let after ← makeJoin
      k t entry after) s Q := by
  unfold allocateTry
  rw [ends_bind, ends_modifyGet]
  have hp0 : Pass s γ { s with nextTry := s.nextTry + 1 } γ :=
    .of_around ⟨.refl _ _, Nat.le_succ _⟩ rfl
  have ht : IsTry (s.nextTry + 1) s.nextTry := ⟨s.nextTry, Nat.lt_succ_self _, rfl⟩
  refine (built_enterTry h.allocate (room1.owe _) ht).bind ?_
  rintro entry s1 ⟨γ1, h1⟩
  refine (joined_makeJoin h1.ready (room.owe s.nextTry).last).bind ?_
  rintro after s2 ⟨γ2, h2⟩
  have hp := h1.toPass.trans h2.toPass
  exact hk entry after s2 γ2 (hp0.trans hp) h2.ready.swap (ht.mono hp.step.nextTry)
    (h1.spans.step h2.step) h2.placed

theorem built_tryBody {entry : Fragment} (hm : Lowers o true m) (h : Ready o s γ P (entry :: L))
    (room : Room o true env P p q) (ht : IsTry s.nextTry t)
    (hentry : Spans o s.code γ a entry (p.inRegion t)) :
    Ends env (chain entry [inTry t m]) s fun f s' =>
      ∃ γ', Built o s γ P L a (q.inRegion t) f s' γ' := by
  rw [chain_one]
  exact built_behind hentry (built_inTry hm h room ht)

theorem region_lt (h : Ready o s γ P L) (room : Room o true env P p q) : p.region < s.nextTry :=
  (isRegion_tries h.inv (room.state rfl)).lt

theorem lowers_tryCatch (hcs : ∀ c ∈ cs, Lowers o true c.2) (hm : Lowers o true m) :
    Lowers o true (tryCatch cs m) := by
  intro env s γ P L p q h room
  obtain ⟨p1, room1, room2⟩ := room.split
  obtain ⟨p2, room2, room3⟩ := room2.split
  unfold tryCatch
  split
  · exact ends_malformed
  refine ends_begun h room1 room fun entry after s1 γ1 hp1 hr1 ht sp1 hafter1 => ?_
  refine (built_tryBody hm hr1 (room2.owe _) ht sp1).bind ?_
  rintro f s2 ⟨γ2, h2⟩
  have hafter2 := hafter1.step h2.step
  refine ends_leave h2.ready h2.spans (hafter2.before room3.lt.2) fun s3 γ3 hp3 hr3 => ?_
  have h3 : Guarding o s γ (P.owe s.nextTry) L p _ q f after s3 γ3 :=
    ⟨(hp1.trans h2.toPass).trans hp3, hr3, h2.spans.step hp3.step, hafter2.step hp3.step⟩
  refine Ends.bind (M := fun _ s' => ∃ γ', Stepped o s3 γ3 P (f.closed :: .single after :: L) s' γ')
    ?_ ?_
  · refine stepped_inHandler _ h3.ready room1 (ht.mono (h2.step.trans hp3.step).nextTry)
      (region_lt h room) fun c handler s4 γ4 h4 hc => ?_
    have hafter4 := (h3.after.step h4.step).before (p := p2) room3.lt.2
    refine (built_clauses hcs h4.ready room2 room1.le hc hafter4 h4.spans).bind ?_
    rintro ⟨rest, reached⟩ s5 ⟨γ5, h5⟩
    refine (stepped_rethrow h5.ready room3 (hc.mono h5.step.nextTry) h5.spans).mono ?_
    rintro _ s6 ⟨γ6, h6⟩
    exact ⟨γ6, h6.after h5.toPass⟩
  · rintro reached s4 ⟨γ4, h4⟩
    exact ends_pure.mpr ⟨γ4, (h3.then h4.toPass h4.ready).done room.le reached⟩

/-- The finalizer is lowered where it stands, outside of the body, wherever it is run. -/
theorem finalizes_withReader {t : Int} (id : Nat) (frame : Int) (depths : Depths)
    (hm : Lowers o true m) (room : Room o true env P p q) (ht : t = p.region) :
    Finalizes o ⟨id, frame, t, depths, withReader (fun e => { e with within := env.within }) m⟩ :=
  fun _ s γ P' L p' q' h room' htries hp => ends_withReader.mpr (hm _ s γ P' L p' q' h { room' with
    state := fun _ => htries.trans hp.symm
    source := fun _ => (room.source rfl).trans (ht.symm.trans hp.symm) })

theorem lowers_tryFinally {body : Finalizer → LowerM Fragment}
    (hbody : ∀ z, Finalizes o z → Lowers o true (body z)) (hm : Lowers o true m) :
    Lowers o true (tryFinally body m) := by
  intro env s γ P L p q h room
  obtain ⟨p1, room1, room2⟩ := room.split
  obtain ⟨p2, room2, room3⟩ := room2.split
  obtain ⟨p3, room3, room4⟩ := room3.split
  obtain ⟨p4, room4, room5⟩ := room4.split
  unfold tryFinally
  rw [ends_bind, ends_read]
  refine ends_begun h room1 room fun entry after s1 γ1 hp1 hr1 ht sp1 hafter1 => ?_
  unfold currentTry
  rw [ends_bind, ends_get, ends_bind, ends_bind, ends_get, ends_pure, ends_bind, ends_modify]
  have houter : s1.tries.headD Graph.noTry = p.region := hr1.inv.regions.tries.1 ▸ room.state rfl
  have same : Same s1 { s1 with nextFinalizer := s1.nextFinalizer + 1 } :=
    ⟨⟨rfl, rfl, rfl, rfl, rfl⟩, rfl, rfl, rfl⟩
  refine (built_tryBody (hbody _ (finalizes_withReader _ _ _ hm room houter)) (hr1.same same)
    (room2.owe _) ht (sp1.step (same.step γ1))).bind ?_
  rintro f s2 ⟨γ2, h2⟩
  replace h2 := h2.after (same.calm γ1).pass
  have hafter2 := hafter1.step h2.step
  have hrest : ∀ reached s3 γ3, Pass s2 γ2 s3 γ3 →
      Ready o s3 γ3 (P.owe s.nextTry) (f.closed :: .single after :: L) → Ends env (do
      inHandler do
        let caught ← caughtHere s.nextTry
        let handler ← enterHandler caught []
        let handler ← chain handler [m]
        if handler.isOpen then
          let _ ← chain handler [rethrowHere caught]
      return afterTry f after reached) s3 fun f s' => ∃ γ', Built o s γ P L p q f s' γ' := by
    intro reached s3 γ3 hp3 hr3
    have h3 : Guarding o s γ (P.owe s.nextTry) L p _ q f after s3 γ3 :=
      ⟨(hp1.trans h2.toPass).trans hp3, hr3, h2.spans.step hp3.step, hafter2.step hp3.step⟩
    refine Ends.bind
      (M := fun _ s' => ∃ γ', Stepped o s3 γ3 P (f.closed :: .single after :: L) s' γ') ?_ ?_
    · refine stepped_inHandler [] h3.ready room1 (ht.mono (h2.step.trans hp3.step).nextTry)
        (region_lt h room) fun c handler s4 γ4 h4 hc => ?_
      have hfinally : Follows o true fun f => chain f [m] := follows_chain (by simpa)
      refine (hfinally env s4 γ4 P _ p p1 p2 handler h4.ready room2 h4.spans).bind ?_
      rintro handler s5 ⟨γ5, h5⟩
      refine (stepped_rethrow h5.ready room3 (hc.mono h5.step.nextTry) h5.spans).mono ?_
      rintro _ s6 ⟨γ6, h6⟩
      exact ⟨γ6, h6.after h5.toPass⟩
    · rintro _ s4 ⟨γ4, h4⟩
      exact ends_pure.mpr ⟨γ4, (h3.then h4.toPass h4.ready).done room.le reached⟩
  dsimp only
  split
  · refine (joined_makeJoin (p := p3) h2.ready ((room3.owe _).last)).bind ?_
    rintro join s3 ⟨γ3, h3⟩
    refine (Ends.and (built_jump h3.ready.swap (h2.spans.step h3.step) (h3.placed.before room3.lt.2) p3)
      entry_chain).bind ?_
    rintro g s4 ⟨⟨γ4, h4⟩, hentry⟩
    have hr4 : Ready o s4 γ4 (P.owe s.nextTry) (f.closed :: .single join :: .single after :: L) :=
      h4.ready.closed.sameEntry hentry rfl
    have hnormal (d : Depths) : Follows o true fun f => chain f [atDepths d m] :=
      follows_chain (by simpa using show Lowers o true (atDepths d m) from (rules o true).atDepths hm)
    refine (built_startingAt (hnormal _) hr4.swap (room4.owe _) (h3.placed.step h4.step)).bind ?_
    rintro normal s5 ⟨γ5, h5⟩
    have hp35 := (h3.toPass.trans h4.toPass).trans h5.toPass
    have hafter5 := (hafter2.step hp35.step).before (p := p4) room5.lt.2
    refine ends_leave h5.ready h5.spans hafter5 fun s6 γ6 hp6 hr6 => ?_
    exact ends_bind.mpr (ends_pure.mpr (hrest _ s6 γ6 (hp35.trans hp6) hr6.forget))
  · exact ends_bind.mpr (ends_pure.mpr (hrest _ s2 γ2 (.refl s2 γ2) h2.ready.closed))

end Flowgraph.Lowering.Assembly
