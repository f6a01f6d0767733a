import Flowgraph.Lowering.Loop
import Flowgraph.Proofs.Lowering.Assembly.Ready

/-! # Branches and loops

A loop has one header. The jump into the loop and the jumps back lead to it. It comes
after the body, and its check leads back to the start.
-/

namespace Flowgraph.Lowering.Assembly

open Flowgraph.Graph (Code Fragment Instruction Op)
open Flowgraph.Tree (Expr)

variable {o : Bool} {env : Env} {s s' : State} {γ γ' : Notes} {P : Kept} {L : List Fragment}
  {m m' : LowerM Fragment} {a : Note} {p q r l : Mark} {f g : Fragment} {i : Nat}

theorem lowers_branch (condition : Expr) (hm : Lowers o true m) (hm' : Lowers o true m') :
    Lowers o true (branch condition m m') := by
  intro env s γ P L p q h room
  obtain ⟨p1, room1, room2⟩ := room.split
  obtain ⟨p2, room2, room3⟩ := room2.split
  unfold branch
  refine (forked_testing _ h room1).bind ?_
  rintro b s1 ⟨γ1, h1⟩
  refine (built_startingAt (follows_chain (by simpa)) h1.ready room2 h1.yes).bind ?_
  rintro yes s2 ⟨γ2, h2⟩
  refine (built_startingAt (follows_chain (by simpa)) h2.ready.swap room2
    (h1.no.step h2.step)).bind ?_
  rintro no s3 ⟨γ3, h3⟩
  have hp := (h1.toPass.trans h2.toPass).trans h3.toPass
  have spb := (h1.code.step (h2.step.trans h3.step)).until (room2.trans room3).le
  have spy := h2.spans.step h3.step
  have hpq := fun _ : b.code.entry = none => note_le room.le
  split
  · refine (joined_makeJoin h3.ready room.last).bind ?_
    rintro join s4 ⟨γ4, h4⟩
    have hr4 : Ready o s4 γ4 P (yes :: no :: b.code :: .single join :: L) :=
      h4.ready.perm (by grind)
    refine (built_jump hr4 (spy.step h4.step) (h4.placed.before room3.lt.2) q).bind ?_
    rintro _ s5 ⟨γ5, h5⟩
    have st45 := h4.step.trans h5.step
    refine (built_jump h5.ready.forget (h3.spans.step st45)
      ((h4.placed.step h5.step).before room3.lt.2) q).bind ?_
    rintro _ s6 ⟨γ6, h6⟩
    refine ends_pure.mpr ⟨γ6, ((hp.trans h4.toPass).trans h5.toPass).trans h6.toPass,
      h6.ready.forget.exitingAt, ?_⟩
    exact (spb.step (st45.trans h6.step)).leavingAt (h4.placed.step (h5.step.trans h6.step))
  · have hr : Ready o s3 γ3 P (b.code :: yes :: L) := h3.ready.forget.swap
    exact ends_pure.mpr ⟨γ3, hp, hr.entryExit, spb.exits (spy.until room3.le) hpq⟩
  · have hr : Ready o s3 γ3 P (b.code :: no :: L) := h3.ready.swap.forget.swap
    exact ends_pure.mpr ⟨γ3, hp, hr.entryExit, spb.exits (h3.spans.until room3.le) hpq⟩
  · exact ends_pure.mpr ⟨γ3, hp, h3.ready.forget.forget.closed, spb.closed (note_le room.le)⟩

/-! ## Headers -/

theorem lowers_inLoop (hm : Lowers o true m) : Lowers o true (inLoop m) := (rules o true).between hm

/-- The join of a loop comes after its body, so that jumps back to it go forward. -/
theorem joined_header (l : Mark) (h : Ready o s γ P L) (room : Room o true env P p q) :
    Ends env makeJoin s fun i s' =>
      ∃ γ' r, Joined o s γ P L r i s' γ' ∧ p < r ∧ l.rank < r.rank := by
  have hl : l.rank < max l.rank p.rank + 1 := (le_max_left _ _).trans_lt (lt_add_one _)
  have hp : p.rank < max l.rank p.rank + 1 := (le_max_right _ _).trans_lt (lt_add_one _)
  refine (joined_makeJoin (p := ⟨p.region, max l.rank p.rank + 1⟩) h (room.state rfl)).mono ?_
  rintro i s' ⟨γ', h'⟩
  exact ⟨γ', _, h', ⟨rfl, hp⟩, hl⟩

/-- What follows a check may have any rank, and so may what follows code that is not ordered. -/
theorem built_check (h : Ready o s γ P (.single i :: L)) (room : Room o true env P p q)
    (hi : Placed Op.isJoin s.code γ r i) (hr : p < r) :
    Ends env (chain (.single i) [checkStackOverflow]) s fun g s' =>
      ∃ γ', Built o s γ P L r p g s' γ' := by
  unfold chain checkStackOverflow
  rw [bind_assoc, ends_bind, ends_read]
  split
  · rw [bind_assoc, ends_bind, ends_get, ends_bind, ends_perform]
    let x : Instruction := { op := .checkStackOverflow s.depths.loop, within := env.within }
    obtain ⟨γ1, h1⟩ := made_plain (V := []) (f := .single s.code.size) (x := x) (p := r) (q := r)
      (w := { s with code := s.code.push x }) h.inv (.refl s) le_rfl rfl rfl
      (fun _ => hr.1.symm.trans (room.source rfl).symm) (by rintro _ _ _ ⟨⟩) .nil rfl rfl (.inl rfl)
      rfl ⟨rfl, rfl, rfl, rfl, rfl⟩ (.inl ⟨rfl, fun h => absurd rfl h⟩)
    rw [h.empty] at h1
    have hend : Spans o (s.code.push x) γ1 r (.single s.code.size) p := by
      refine ⟨h1.spans.entry, ?_, nofun⟩
      rintro y ⟨⟩
      refine ⟨by simp, nofun, (h1.spans.exit s.code.size rfl).2.region.trans hr.1.symm, fun _ hc => ?_⟩
      rw [Code.op_push_size] at hc
      cases hc
    have hb := Built.of_made h h1
    refine (built_append hb.ready.swap (hi.step hb.step).spans hend).bind ?_
    rintro g s2 ⟨γ2, h2⟩
    exact (h2.after hb.toPass).pure
  · rename_i hchecks
    rw [ends_bind, ends_pure, ends_bind, ends_append, chain, ends_pure]
    refine ⟨γ, .refl s γ, h, (hi.spans (o := o)).entry, ?_, nofun⟩
    rintro y ⟨⟩
    exact ⟨hi.lt, nofun, by rw [hi.note]; exact hr.1.symm, fun ho => absurd (room.checks ho) hchecks⟩

theorem built_checked (ms : List (LowerM Fragment)) {Q : Fragment → State → Prop}
    (h : Ready o s γ P (.single i :: f :: L)) (room : Room o true env P p q)
    (hi : Placed Op.isJoin s.code γ r i) (hr : p < r) (hf : Spans o s.code γ p f l)
    (hk : ∀ g t, (∃ γ', Built o s γ P L r l g t γ') → Ends env (chain g ms) t Q) :
    Ends env (startingAt i (checkStackOverflow :: pure f :: ms)) s Q := by
  change Ends env (chain (.single i) ([checkStackOverflow] ++ pure f :: ms)) s Q
  rw [chain_append]
  refine (built_check h room hi hr).bind ?_
  rintro g s1 ⟨γ1, h1⟩
  rw [chain_pure]
  refine (built_append h1.ready h1.spans (hf.step h1.step)).bind ?_
  rintro k s2 ⟨γ2, h2⟩
  exact hk k s2 ⟨γ2, h2.after h1.toPass⟩

theorem built_loopHeader (h : Ready o s γ P (f :: g :: L)) (room : Room o true env P p q)
    (hf : Spans o s.code γ a f l) (hg : Spans o s.code γ p g r) (q' : Mark) :
    Ends env (loopHeader f g) s fun k s' => ∃ γ', Built o s γ P L p q' k s' γ' := by
  unfold loopHeader
  refine (joined_header l h room).bind ?_
  rintro join s1 ⟨γ1, r', h1, hp, hl⟩
  refine (built_jump h1.ready.swap (hf.step h1.step) (h1.placed.before hl) p).bind ?_
  rintro _ s2 ⟨γ2, h2⟩
  have hjoin := h1.placed.step h2.step
  refine (built_checked [] h2.ready.forget room hjoin hp (hg.step (h1.step.trans h2.step))
    fun _ _ hb => ends_pure.mpr hb).bind ?_
  rintro _ s3 ⟨γ3, h3⟩
  refine (built_gotoJoin none h3.ready.forget ((hjoin.step h3.step).before hp.2) q').mono ?_
  rintro k s4 ⟨γ4, h4⟩
  exact ⟨γ4, h4.after ((h1.toPass.trans h2.toPass).trans h3.toPass)⟩

theorem built_loopForever (h : Ready o s γ P (f :: L)) (room : Room o true env P p q)
    (hf : Spans o s.code γ p f l) (q' : Mark) :
    Ends env (loopForever f) s fun k s' => ∃ γ', Built o s γ P L p q' k s' γ' := by
  unfold loopForever
  refine (joined_header l h room).bind ?_
  rintro join s1 ⟨γ1, r, h1, hp, hl⟩
  refine Ends.bind (M := fun g t => ∃ γ', Built o s1 γ1 P L r l g t γ')
    (built_checked [gotoJoin join] h1.ready room h1.placed hp (hf.step h1.step) ?_) ?_
  · rintro g s2 ⟨γ2, h2⟩
    refine (built_jump h2.ready h2.spans ((h1.placed.step h2.step).before hl) l).mono ?_
    rintro k s3 ⟨γ3, h3⟩
    exact ⟨γ3, h3.after h2.toPass⟩
  rintro _ s2 ⟨γ2, h2⟩
  refine (built_gotoJoin none h2.ready.forget ((h1.placed.step h2.step).before hp.2) q').mono ?_
  rintro k s3 ⟨γ3, h3⟩
  exact ⟨γ3, h3.after (h1.toPass.trans h2.toPass)⟩

/-! ## Loops -/

theorem lowers_doLoop (condition : Expr) (hm : Lowers o true m) :
    Lowers o true (doLoop m condition) := by
  refine lowers_inLoop fun env s γ P L p q h room => ?_
  obtain ⟨p1, room1, room2⟩ := room.split
  refine (hm env s γ P L p p1 h room1).bind ?_
  rintro body s1 ⟨γ1, h1⟩
  have hlast : ∀ k t, (∃ γ', Built o s1 γ1 P L p q k t γ') → ∃ γ', Built o s γ P L p q k t γ' :=
    fun _ _ ⟨γ', h'⟩ => ⟨γ', h'.after h1.toPass⟩
  split
  · exact (built_pure h1.ready (h1.spans.until room2.le)).mono hlast
  split
  · exact (built_loopForever h1.ready room h1.spans q).mono hlast
  · refine (forked_testing _ h1.ready room2).bind ?_
    rintro b s2 ⟨γ2, h2⟩
    have hr2 : Ready o s2 γ2 P (body :: b.code :: .single b.yes :: .single b.no :: L) :=
      h2.ready.perm (by grind)
    refine (built_append hr2 (h1.spans.step h2.step) h2.code).bind ?_
    rintro iteration s3 ⟨γ3, h3⟩
    refine (built_loopHeader h3.ready.swap room (h2.yes.step h3.step).spans h3.spans q).bind ?_
    rintro entry s4 ⟨γ4, h4⟩
    have hno := h2.no.step (h3.step.trans h4.step)
    exact ends_pure.mpr ⟨γ4, ((h1.toPass.trans h2.toPass).trans h3.toPass).trans h4.toPass,
      h4.ready.exitingAt, h4.spans.leavingAt hno⟩

theorem follows_forUpdates (fresh : Bool) (updates : List Expr) :
    Follows o true (forUpdates fresh updates) := by
  refine follows_append ?_ ?_
  · refine follows_chain fun m hm => ?_
    split at hm
    · exact List.mem_singleton.mp hm ▸ Makes.lowers inferInstance
    · cases hm
  · induction updates with
    | nil => exact follows_pure
    | cons e updates ih =>
      have hupdate : Follows o true fun f => chain f [marked (.update e) (lowerExpr e), drop] :=
        Continues.follows inferInstance
      exact follows_append hupdate ih

theorem follows_forIterations (fresh : Bool) (condition : Option Expr) (updates : List Expr)
    (hm : Lowers o true m) : Follows o true fun f => forIterations f fresh condition updates m := by
  intro env s γ P L a p q before h room sp
  obtain ⟨p1, room1, room2⟩ := room.split
  unfold forIterations
  split
  · refine (hm env s γ P _ p p1 h room1).bind ?_
    rintro body s1 ⟨γ1, h1⟩
    split
    · refine Ends.bind
        (follows_forUpdates fresh updates env s1 γ1 P _ p p1 q body h1.ready room2 h1.spans) ?_
      rintro body' s2 ⟨γ2, h2⟩
      unfold chain
      refine (built_loopForever h2.ready room h2.spans q).bind ?_
      rintro loop s3 ⟨γ3, h3⟩
      have hp := (h1.toPass.trans h2.toPass).trans h3.toPass
      refine (built_append h3.ready.swap (sp.step hp.step) h3.spans).bind ?_
      rintro k s4 ⟨γ4, h4⟩
      exact (h4.after hp).pure
    · refine (built_append h1.ready.swap (sp.step h1.step) (h1.spans.until room2.le)).mono ?_
      rintro k s2 ⟨γ2, h2⟩
      exact ⟨γ2, h2.after h1.toPass⟩
  · obtain ⟨p2, room2, room3⟩ := room2.split
    refine (forked_testing _ h room1).bind ?_
    rintro b s1 ⟨γ1, h1⟩
    refine (built_startingAt (follows_chain (by simpa)) h1.ready room2 h1.yes).bind ?_
    rintro body s2 ⟨γ2, h2⟩
    have hr : Ready o s2 γ2 P (body :: b.code :: before :: .single b.no :: L) :=
      h2.ready.perm (by grind)
    have hp := h1.toPass.trans h2.toPass
    have spb := h1.code.step h2.step
    -- However the loop is entered, it is left by the failing condition.
    have hexit : ∀ k t, (∃ γ', Built o s2 γ2 P (.single b.no :: L) a p1 k t γ') →
        Ends env (pure (k.exitingAt b.no)) t fun f s' => ∃ γ', Built o s γ P L a q f s' γ' := by
      rintro k s3 ⟨γ3, h3⟩
      have hno := h1.no.step (h2.step.trans h3.step)
      exact ends_pure.mpr ⟨γ3, hp.trans h3.toPass, h3.ready.exitingAt,
        (h3.spans.leavingAt hno).until (room2.trans room3).le⟩
    dsimp only
    split
    · refine (follows_forUpdates fresh updates env s2 γ2 P _ p1 p2 q body hr room3 h2.spans).bind ?_
      rintro body' s3 ⟨γ3, h3⟩
      refine Ends.bind ?_ hexit
      unfold chain
      refine (built_loopHeader h3.ready room h3.spans (spb.step h3.step) p1).bind ?_
      rintro loop s4 ⟨γ4, h4⟩
      have st34 := h3.step.trans h4.step
      refine (built_append h4.ready.swap ((sp.step hp.step).step st34) h4.spans).bind ?_
      rintro k s5 ⟨γ5, h5⟩
      exact (h5.after (h3.toPass.trans h4.toPass)).pure
    · exact (built_append hr.forget.swap (sp.step hp.step) spb).bind hexit

theorem lowers_forIn (node : Nat) (place : Position) (d : Tree.Declaration) (iterable : Expr)
    (hm : Lowers o true m) : Lowers o true (forIn node place d iterable m) := by
  refine .silent fun s => .silent fun iterator =>
    (Makes.lowers inferInstance).bind (.silent fun _ => ?_)
  refine Follows.trans (.silent fun _ => Follows.trans ?_ (.silent fun _ => follows_pure))
    (.silent fun _ => follows_pure)
  intro env s γ P L a p q before h room sp
  obtain ⟨p1, room1, room2⟩ := room.split
  obtain ⟨p2, room2, room3⟩ := room2.split
  have hask : Makes o (inOrder [loadLocal iterator, pushArgument, instanceCall "moveNext" 1 []]) 0 1 :=
    inferInstance
  refine (hask.made env s γ P _ p p1 h.inv room1).bind ?_
  rintro c s1 ⟨γ1, h1⟩
  refine (branched_branchIfTrue h1.inv room2).bind ?_
  rintro b s2 ⟨γ2, h2⟩
  refine (h2.behind h1).bind ?_
  rintro condition s3 ⟨γ3, h3⟩
  rw [h.empty] at h3
  replace h3 := Forked.of_branched h h3
  have hstore : Makes o (do storeVariable (← lookupVariable place d.ref)) 1 1 :=
    made_passive inferInstance
  have hnext : Follows o true fun f => chain f [enterScope node place, loadLocal iterator,
      pushArgument, instanceCall (Symbols.getterName "current") 1 [],
      do storeVariable (← lookupVariable place d.ref), drop] := Continues.follows inferInstance
  have hbody : Follows o true fun f => chain f [m, exitScope node] :=
    follows_chain (by simpa using ⟨hm, Makes.lowers inferInstance⟩)
  refine (built_startingAt (follows_append hnext hbody) h3.ready room3 h3.yes).bind ?_
  rintro body s4 ⟨γ4, h4⟩
  have hp := h3.toPass.trans h4.toPass
  have hr : Ready o s4 γ4 P (before :: condition :: body :: .single b.no :: L) :=
    h4.ready.perm (by grind)
  have spf := sp.step hp.step
  have spc := h3.code.step h4.step
  have hexit : ∀ k t, (∃ γ', Built o s4 γ4 P (.single b.no :: L) a p2 k t γ') →
      Ends env (pure (k.exitingAt b.no)) t fun f s' => ∃ γ', Built o s γ P L a q f s' γ' := by
    rintro k s5 ⟨γ5, h5⟩
    have hno := h3.no.step (h4.step.trans h5.step)
    exact ends_pure.mpr ⟨γ5, hp.trans h5.toPass, h5.ready.exitingAt,
      (h5.spans.leavingAt hno).until room3.le⟩
  dsimp only
  split
  · refine (joined_header q hr room).bind ?_
    rintro join s5 ⟨γ5, r, h5, hpr, hqr⟩
    refine (built_jump h5.ready.swap (spf.step h5.step) (h5.placed.before hpr.2) p2).bind ?_
    rintro f s6 ⟨γ6, h6⟩
    have hr6 : Ready o s6 γ6 P (body :: .single join :: condition :: f :: .single b.no :: L) :=
      h6.ready.perm (by grind)
    have st56 := h5.step.trans h6.step
    have hjoin := h5.placed.step h6.step
    refine (built_jump hr6 (h4.spans.step st56) (hjoin.before hqr) q).bind ?_
    rintro _ s7 ⟨γ7, h7⟩
    refine (built_checked [] h7.ready.forget room (hjoin.step h7.step) hpr
      (spc.step (st56.trans h7.step)) fun _ _ hb => ends_pure.mpr hb).bind ?_
    rintro _ s8 ⟨γ8, h8⟩
    have hp' := ((h5.toPass.trans h6.toPass).trans h7.toPass).trans h8.toPass
    exact hexit _ _ ⟨γ8, hp', h8.ready.forget, h6.spans.step (h7.step.trans h8.step)⟩
  · have hr' : Ready o s4 γ4 P (before :: condition :: .single b.no :: L) :=
      h4.ready.forget.perm (by grind)
    exact (built_append hr' spf spc).bind hexit

theorem lowers_assertion (condition : Expr) (message : Option Expr) :
    Lowers o true (assertion condition message) := by
  refine .silent fun e => (rules o true).ite lowers_empty fun env s γ P L p q h room => ?_
  obtain ⟨p1, room1, room2⟩ := room.split
  obtain ⟨p2, room2, room3⟩ := room2.split
  refine (forked_branchOnCondition h room1).bind ?_
  rintro b s1 ⟨γ1, h1⟩
  have hr : Ready o s1 γ1 P (.single b.no :: b.code :: .single b.yes :: L) :=
    h1.ready.perm (by grind)
  have hno := h1.no
  rw [← h1.ready.empty] at hno
  refine (made_startingAt (u := 0) (v := 1) hr.inv room2 hno).bind ?_
  rintro failure s2 ⟨γ2, h2⟩
  refine ends_silent fun create s3 same => ?_
  have hthrow : Continues o (fun f => chain f [staticCall create 1 [], throwException]) 1 1 :=
    inferInstance
  have spf : Spans o s3.code γ2 ⟨values s1, p1⟩ failure ⟨values s3, p2⟩ :=
    h2.spans.calm (same.calm γ2)
  refine (hthrow.made env s3 γ2 P _ _ p2 q failure (h2.inv.congr same) room3 spf).bind ?_
  rintro _ s4 ⟨γ4, h4⟩
  have hdrop : Makes o drop 1 0 := inferInstance
  refine (hdrop.made env s4 γ4 P _ p q h4.inv.forget room).bind ?_
  rintro _ s5 ⟨γ5, h5⟩
  have heffect : Effect 0 0 (values s1) (values s5) := by
    have h34 := h4.effect
    rw [same.values] at h34
    exact (h2.effect.trans h34).trans h5.effect
  have hc : Calm s1 γ1 s5 γ5 :=
    ⟨((h2.step.trans (same.step γ2)).trans h4.step).trans h5.step, heffect.eq,
      h5.around.trans (h4.around.trans (same.around.trans h2.around))⟩
  have hr5 : Ready o s5 γ5 P (b.code :: .single b.yes :: L) := hr.forget.calm hc h5.inv.forget
  exact ends_pure.mpr ⟨γ5, h1.toPass.trans hc.pass, hr5.exitingAt,
    ((h1.code.step hc.step).leavingAt (h1.yes.step hc.step)).until (room2.trans room3).le⟩

end Flowgraph.Lowering.Assembly
