import Flowgraph.Lowering.Jump
import Flowgraph.Proofs.Lowering.Assembly.Ready

/-! # Jumps

All breaks to a statement lead to one join, which is in hand until the statement is
done. Its mark was reserved when the labeled statement began, so a break lands after
the code it leaves. Every jump has finalizers of its own, which come before the jump.
A jump out of try blocks leaves their regions one by one. Each finalizer runs in the
region around its try statement, where the source of the finalizer is.
-/

namespace Flowgraph.Lowering.Assembly

open Flowgraph.Graph (Fragment Instruction Op)

variable {o b : Bool} {env : Env} {s s' : State} {γ γ' : Notes} {P : Kept} {L : List Fragment}
  {m : LowerM Fragment} {a : Note} {p q : Mark} {f : Fragment} {i : Nat} {fs : Finalizers}
  {ts : List Int}

/-! ## Finalizers -/

/-- The finalizer is in the region around its try statement. -/
def Finalizes (ordered : Bool) (z : Finalizer) : Prop :=
  ∀ env s γ P L p q, Ready ordered s γ P L → Room ordered false env P p q →
    P.tries.headD Graph.noTry = z.tryIndex → p.region = z.tryIndex →
    Ends env z.code s fun f s' => ∃ γ', Built ordered s γ P L p q f s' γ'

/-- From `s` on, a fragment was made that ends where the state is now, maybe outside of some of
the try blocks. -/
def Left (ordered : Bool) (s : State) (γ : Notes) (P : Kept) (L : List Fragment) (a : Note) (q : Mark)
    (f : Fragment) (s' : State) : Prop :=
  ∃ ts γ', Built ordered s γ { P with tries := ts } L a (q.inRegion (ts.headD Graph.noTry)) f s' γ'

/-- Code that throws nothing can be made in any region, wherever the state is. -/
theorem Room.unbound (h : Room o b env P p q) (ts : List Int) (r : Int) :
    Room o false env { P with tries := ts } (p.inRegion r) (q.inRegion r) :=
  ⟨⟨rfl, h.lt.2⟩, h.labels, h.checks, nofun, nofun⟩

theorem Ready.withTries (h : Ready o s γ P L) (frame : Int) (hts : ∀ t ∈ ts, IsTry s.nextTry t) :
    Ready o { s with tries := ts, frame } γ { P with tries := ts } L :=
  { h with inv := { h.inv with regions := { h.inv.regions with tries := ⟨rfl, hts⟩ } } }

theorem ends_leaveTries {t : Int} {ts : List Int} (hs : s.tries = ts) :
    Ends env (leaveTries t ts) s fun left s' => ∃ ts', (∀ t ∈ ts', t ∈ ts) ∧
      s' = { s with tries := ts' } ∧ ts'.headD Graph.noTry = t ∧ (left = false → ts' = ts) := by
  induction ts generalizing s with
  | nil =>
    unfold leaveTries
    split
    · exact ends_pure.mpr ⟨[], by simp, by rw [← hs], by simp_all, fun _ => rfl⟩
    · exact ends_throw
  | cons u ts ih =>
    unfold leaveTries
    split
    · exact ends_pure.mpr ⟨u :: ts, fun _ h => h, by rw [← hs], by simp_all, fun _ => rfl⟩
    · rw [ends_bind, ends_modify, ends_bind]
      refine (ih rfl).mono ?_
      rintro _ _ ⟨ts', hsub, rfl, hhead, -⟩
      exact ends_pure.mpr ⟨ts', fun t ht => List.mem_cons_of_mem _ (hsub t ht), rfl, hhead,
        fun h => absurd h (by decide)⟩

theorem Finalizes.built {z : Finalizer} (hz : Finalizes o z) (h : Ready o s γ P (f :: L))
    (room : Room o false env P p q) (ht : P.tries.headD Graph.noTry = z.tryIndex)
    (hp : p.region = z.tryIndex) (sp : Spans o s.code γ a f p) :
    Ends env (chain f [atDepths z.depths z.code]) s fun g s' => ∃ γ', Built o s γ P L a q g s' γ' := by
  rw [chain_one]
  refine built_behind sp (ends_silent fun outer s1 same1 => ends_silent fun _ s2 same2 => ?_)
  have same := same1.trans same2
  refine (hz env s2 γ P (f :: L) p q (h.same same) room ht hp).bind ?_
  rintro g s3 ⟨γ3, h3⟩
  refine ends_silent fun _ s4 same4 => ends_pure.mpr ⟨γ3, ?_, h3.ready.same same4, ?_⟩
  · exact ((same.calm γ).pass.trans h3.toPass).trans (same4.calm γ3).pass
  · exact h3.spans.step (same4.step γ3)

theorem left_pure (h : Ready o s γ P (f :: L)) (room : Room o false env P p q)
    (hp : p.region = P.tries.headD Graph.noTry) (sp : Spans o s.code γ a f p) :
    Ends env (pure f) s (Left o s γ P L a q) :=
  ends_pure.mpr ⟨P.tries, γ, .refl s γ, h, sp.until ⟨hp, room.lt.2.le⟩⟩

theorem left_runFinalizers (target : Option Nat) (hfs : ∀ z ∈ fs, Finalizes o z)
    (h : Ready o s γ P (f :: L)) (room : Room o false env P p q)
    (hp : p.region = P.tries.headD Graph.noTry) (sp : Spans o s.code γ a f p) :
    Ends env (runFinalizers target fs f) s (Left o s γ P L a q) := by
  induction fs generalizing f s γ P p q with
  | nil =>
    unfold runFinalizers
    split
    · exact left_pure h room hp sp
    · exact ends_inconsistent
  | cons z fs ih =>
    unfold runFinalizers
    split
    · exact left_pure h room hp sp
    obtain ⟨p1, room1, room2⟩ := room.split
    obtain ⟨p2, room2, room3⟩ := room2.split
    obtain ⟨p3, room3, room4⟩ := room3.split
    -- Before the finalizer, the state is in the region around its try statement.
    let Outside (f' : Fragment) (t : State) : Prop := ∃ ts γ', ts.headD Graph.noTry = z.tryIndex ∧
      Built o s γ { P with tries := ts } L a (p2.inRegion z.tryIndex) f' t γ'
    have hrest : ∀ f' t, Outside f' t → Ends env (do
        let f ← chain f' [atDepths z.depths z.code]
        if f.isClosed then return f
        runFinalizers target fs f) t (Left o s γ P L a q) := by
      rintro f' t ⟨ts, γ1, ht, h1⟩
      refine ((hfs z List.mem_cons_self).built h1.ready (room3.unbound ts _) ht rfl
        h1.spans).bind ?_
      rintro g t1 ⟨γ2, h2⟩
      replace h2 := h2.after h1.toPass
      split
      · exact ends_pure.mpr ⟨ts, γ2, h2.until ⟨ht.symm, room4.lt.2.le⟩⟩
      · refine (ih (fun z hz => hfs z (List.mem_cons_of_mem _ hz)) h2.ready (room4.unbound ts _)
          ht.symm h2.spans).mono ?_
        rintro g' t2 ⟨ts', γ3, h3⟩
        exact ⟨ts', γ3, h3.after h2.toPass⟩
    have hadjust : Follows o false fun f => chain f [adjustFrame z.frame] :=
      Continues.follows inferInstance
    refine (hadjust env s γ P L a p p1 f h room1 sp).bind ?_
    rintro f1 s1 ⟨γ1, h1⟩
    rw [ends_bind, ends_get, h1.ready.inv.regions.tries.1]
    refine (ends_leaveTries h1.ready.inv.regions.tries.1).bind ?_
    rintro left s2 ⟨ts, hsub, rfl, hhead, hleft⟩
    have hr2 : Ready o { s1 with tries := ts } γ1 { P with tries := ts } (f1 :: L) :=
      h1.ready.withTries _ fun t ht => h1.ready.inv.regions.tries.2 t (hsub t ht)
    have hp2 : Pass s γ { s1 with tries := ts } γ1 :=
      h1.toPass.trans (.of_around ⟨.refl _ _, le_rfl⟩ rfl)
    cases left with
    | true =>
      dsimp only
      rw [if_pos rfl]
      refine (joined_makeJoin (p := p2.inRegion z.tryIndex) hr2 hhead).bind ?_
      rintro join s3 ⟨γ3, h3⟩
      refine (built_jump h3.ready.swap (h1.spans.grow h3.step.toGrows) (h3.placed.before room2.lt.2)
        (p2.inRegion z.tryIndex)).bind ?_
      rintro f2 s4 ⟨γ4, h4⟩
      refine ends_bind.mpr (ends_pure.mpr (hrest _ _ ⟨ts, γ4, hhead, ?_, h4.ready.exitingAt, ?_⟩))
      · exact (hp2.trans h3.toPass).trans h4.toPass
      · exact h4.spans.leavingAt (h3.placed.step h4.step)
    | false =>
      obtain rfl := hleft rfl
      dsimp only
      rw [if_neg (by simp)]
      refine ends_bind.mpr (ends_pure.mpr (hrest _ _ ⟨P.tries, γ1, hhead, hp2, hr2, ?_⟩))
      exact h1.spans.until ⟨(room1.lt.1.symm.trans hp).trans hhead, room2.lt.2.le⟩

theorem built_finalizersTo (target : Option Nat) (frame : Int) (hfs : ∀ z ∈ fs, Finalizes o z)
    (h : Ready o s γ P L) (room : Room o true env P p q) :
    Ends env (finalizersTo target frame fs) s fun f s' =>
      ∃ r γ', Built o s γ P L p (q.inRegion r) f s' γ' := by
  obtain ⟨p1, room1, room2⟩ := room.split
  unfold finalizersTo
  rw [ends_bind, ends_get]
  refine (left_runFinalizers target hfs h.empty_cons
    (room1.unbound P.tries p.region) (room.state rfl).symm (spans_empty le_rfl)).bind ?_
  rintro f s1 ⟨ts, γ1, h1⟩
  have hq : p1.inRegion (ts.headD Graph.noTry) ≤ q.inRegion (ts.headD Graph.noTry) :=
    ⟨rfl, room2.lt.2.le⟩
  refine Ends.join (M := fun g t => ∃ γ', Built o s1 γ1 { P with tries := ts } L p
    (q.inRegion (ts.headD Graph.noTry)) g t γ') (fun _ => ?_) (fun _ => ?_) ?_
  · have hadjust : Follows o false fun f => chain f [adjustFrame frame] :=
      Continues.follows inferInstance
    exact hadjust env s1 γ1 _ L p _ _ f h1.ready (room2.unbound ts _) h1.spans
  · exact built_pure h1.ready (h1.spans.until hq)
  · rintro g s2 ⟨γ2, h2⟩
    rw [ends_bind, ends_modify, ends_pure]
    replace h2 := h2.after h1.toPass
    have htries : ∀ t ∈ P.tries, IsTry s2.nextTry t := fun t ht =>
      (h.inv.regions.tries.2 t ht).mono h2.step.nextTry
    refine ⟨_, γ2, h2.toPass.trans (.of_around ⟨.refl _ _, le_rfl⟩ rfl), ?_, h2.spans⟩
    rw [h.inv.regions.tries.1]
    exact h2.ready.withTries _ htries

theorem built_jumpTo {l : Landing} (hfs : ∀ z ∈ fs, Finalizes o z) (h : Ready o s γ P L)
    (room : Room o true env P p q) (hm : ∀ s1 γ1 f (r : Mark), r.rank < q.rank →
      Built o s γ P L p r f s1 γ1 →
      Ends env m s1 fun g s2 => ∃ γ2, Built o s1 γ1 P (f :: L) r q g s2 γ2) :
    Ends env (jumpTo fs l m) s fun f s' => ∃ γ', Built o s γ P L p q f s' γ' := by
  obtain ⟨p1, room1, room2⟩ := room.split
  unfold jumpTo inOrder chain
  refine (built_finalizersTo l.finalizer l.frame hfs h room1).bind ?_
  rintro f s1 ⟨r, γ1, h1⟩
  rw [ends_bind, ends_append, chain_one]
  refine (built_behind h1.spans (hm s1 γ1 f _ room2.lt.2 h1)).mono ?_
  rintro g s2 ⟨γ2, h2⟩
  exact ⟨γ2, h2.after h1.toPass⟩

/-! ## Breaks -/

theorem Ready.withBreakable {b : Breakable} (h : Ready o s γ P L) (hb : b.destination = none)
    (hl : Reserved s.nextTry s.code γ b.landing p (· ∈ b.destination)) :
    Ready o { s with breakables := b :: s.breakables } γ { P with labels := p :: P.labels } L := by
  have hj : joins { s with breakables := b :: s.breakables } = joins s := by
    simp [joins, hb]
  refine ⟨?_, h.empty⟩
  rw [pending, hj]
  exact { h.inv with regions := { h.inv.regions with labels := .cons hl h.inv.regions.labels } }

theorem Ready.popBreakable {b : Breakable} {bs : List Breakable}
    (h : Ready o s γ { P with labels := p :: P.labels } L) (hb : s.breakables = b :: bs) :
    Ready o { s with breakables := bs } γ P (b.destination.toList.map .single ++ L) ∧
      ∀ j, b.destination = some j → Placed Op.isJoin s.code γ p j := by
  have hlabels := h.inv.regions.labels
  rw [hb, List.forall₂_cons] at hlabels
  have hj : joins s = b.destination.toList ++ joins { s with breakables := bs } := by
    cases hd : b.destination <;> simp [joins, hb, hd]
  have hinv := h.inv
  rw [pending, hj, List.map_append] at hinv
  refine ⟨⟨?_, h.empty⟩, hlabels.1.placed⟩
  have hperm := hinv.perm (List.append_assoc _ _ _ ▸ List.perm_append_comm.append_right _ :
    List.Perm _ (b.destination.toList.map Fragment.single ++ L ++ pending { s with breakables := bs }))
  exact { hperm with regions := { hperm.regions with labels := hlabels.2 } }

theorem lowers_labeled (label : Nat) (fs : Finalizers) (hm : Lowers o true m) :
    Lowers o true (labeled label fs m) := by
  intro env s γ P L p q h room
  obtain ⟨p1, room1, room2⟩ := room.split
  obtain ⟨p2, room2, room3⟩ := room2.split
  unfold labeled
  rw [ends_bind, ends_landing, ends_bind, ends_modify]
  -- The end of the statement gets the mark `p2`, after all that can break to it.
  have hp2 := (room1.trans room2).last
  have hready := h.withBreakable (p := p2)
    (b := ⟨label, ⟨fs.innermost, s.frame, s.tries.headD Graph.noTry⟩, none⟩) rfl
    ⟨h.inv.regions.tries.1 ▸ hp2, isRegion_tries h.inv hp2, nofun⟩
  have room0 : Room o true env { P with labels := p2 :: P.labels } p p1 :=
    { room1 with labels := List.forall_mem_cons.mpr ⟨room2.le.2, room1.labels⟩ }
  refine (hm env _ γ _ L p p1 hready room0).bind ?_
  rintro f s1 ⟨γ1, h1⟩
  obtain ⟨b, bs, -, hbs, hbr⟩ := List.forall₂_cons_left_iff.mp h1.later.breakables
  obtain ⟨hr, hplaced⟩ := h1.ready.popBreakable hbr
  have hp : Pass s γ { s1 with breakables := bs } γ1 :=
    ⟨{ h1.step with }, ⟨hbs, h1.later.switches⟩, h1.recorded.kept, h1.recorded.switches,
      h1.recorded.continues⟩
  rw [ends_bind, ends_get, ends_bind, ends_set, hbr]
  dsimp only [List.tail_cons, List.head?_cons, Option.bind_some]
  split
  · rename_i hd
    rw [hd] at hr
    exact ends_pure.mpr ⟨γ1, hp, hr, h1.spans.until (room2.trans room3).le⟩
  · rename_i join hd
    rw [hd] at hr
    have hjoin := hplaced join hd
    refine Ends.join (M := fun g s' => ∃ γ', Built o { s1 with breakables := bs } γ1 P
      (.single join :: L) p p2 g s' γ') (fun _ => ?_) (fun _ => ?_) ?_
    · exact built_jump hr.swap h1.spans (hjoin.before room2.lt.2) p2
    · exact built_pure hr.swap (h1.spans.until room2.le)
    · rintro g s2 ⟨γ2, h2⟩
      exact ends_pure.mpr ⟨γ2, hp.trans h2.toPass, h2.ready.exitingAt,
        (h2.spans.leavingAt (hjoin.grow h2.step.toGrows)).until room3.le⟩

/-- The first entry that a test accepts is related to something. It can be replaced by an entry
that is related to the same. -/
theorem forall₂_replaceFirst {α β : Type} {R : α → β → Prop} {test : α → Bool} {x : α}
    {xs : List α} {ys : List β} (h : List.Forall₂ R xs ys) (hx : xs.find? test = some x) :
    ∃ y ∈ ys, R x y ∧ ∀ (R' : α → β → Prop) (g : α → α), (∀ a b, R a b → R' a b) → R' (g x) y →
      List.Forall₂ R' (replaceFirst test g xs) ys := by
  induction h with
  | nil => cases hx
  | @cons a b xs ys hab hrest ih =>
    rw [List.find?_cons] at hx
    unfold replaceFirst
    split at hx
    · obtain rfl := Option.some.inj hx
      rename_i htest
      refine ⟨b, List.mem_cons_self, hab, fun R' g hR hg => ?_⟩
      rw [if_pos htest]
      exact .cons hg (hrest.imp hR)
    · obtain ⟨y, hy, hxy, hreplace⟩ := ih hx
      rename_i htest
      refine ⟨y, List.mem_cons_of_mem _ hy, hxy, fun R' g hR hg => ?_⟩
      rw [if_neg (by simp [htest])]
      exact .cons (hR a b hab) (hreplace R' g hR hg)

section Reach

variable {test : Breakable → Bool} {b : Breakable} {bs : List Breakable}

theorem destinations_reach (hb : bs.find? test = some b) (hd : b.destination = none) (j : Nat) :
    ((replaceFirst test (fun b => { b with destination := some j }) bs).filterMap
      (·.destination)).Perm (j :: bs.filterMap (·.destination)) := by
  induction bs with
  | nil => cases hb
  | cons x bs ih =>
    rw [List.find?_cons] at hb
    unfold replaceFirst
    split at hb
    · rename_i hx
      obtain rfl := Option.some.inj hb
      simp [hx, hd]
    · rename_i hx
      rw [if_neg (by simp [hx])]
      cases hxd : x.destination with
      | none => simpa [List.filterMap_cons, hxd] using ih hb
      | some k =>
        simp only [List.filterMap_cons, hxd]
        exact ((ih hb).cons k).trans (.swap j k _)

theorem later_reach (hb : bs.find? test = some b) (hd : b.destination = none) (j : Nat) :
    List.Forall₂ (fun b b' : Breakable => b'.label = b.label ∧
      ∀ j, b.destination = some j → b'.destination = some j) bs
      (replaceFirst test (fun b => { b with destination := some j }) bs) := by
  obtain ⟨_, -, rfl, hreplace⟩ := forall₂_replaceFirst (List.forall₂_same.mpr fun x _ => Eq.refl x) hb
  refine (hreplace _ _ ?_ ⟨rfl, by simp [hd]⟩).flip
  rintro x _ rfl
  exact ⟨rfl, fun _ h => h⟩

end Reach

theorem joined_emitBlock {r : Int} (h : Ready o s γ P L) (hr : r = p.region)
    (hp : IsRegion s.nextTry p.region) :
    Ends env (emitBlock .join r) s fun i s' => ∃ γ', Joined o s γ P L p i s' γ' ∧
      around s' = around s := by
  subst hr
  refine (begun_emitBlock (starts_join hp) h.inv).mono ?_
  rintro i s' ⟨γ', hb⟩
  have hplaced := hb.placed
  rw [hb.values, h.empty] at hplaced
  exact ⟨γ', ⟨hb.toCalm.pass, h.calm hb.toCalm hb.inv, hplaced⟩, hb.around⟩

theorem Ready.known (h : Ready o s γ P (.single i :: L))
    (hi : Inv o s' γ P (.single i :: L ++ pending s)) (hv : values s' = values s)
    (hj : (joins s').Perm (i :: joins s)) : Ready o s' γ P L where
  inv := hi.perm (List.perm_middle.symm.trans ((hj.map Fragment.single).symm.append_left L))
  empty := hv.trans h.empty

theorem lowers_breakTo (place : Position) (target : Tree.Ref) (hfs : ∀ z ∈ fs, Finalizes o z) :
    Lowers o true (breakTo place target fs) := by
  intro env s γ P L p q h room
  unfold breakTo
  rw [ends_bind, ends_get]
  split
  · exact ends_malformed
  rename_i b hb
  obtain ⟨l, hl, hreserved, hreplace⟩ := forall₂_replaceFirst h.inv.regions.labels hb
  have hql := room.labels l hl
  split
  · rename_i join hd
    have hjoin := hreserved.placed join hd
    refine ends_bind.mpr (ends_pure.mpr (built_jumpTo hfs h room fun s1 γ1 f r hr h1 => ?_))
    exact built_gotoJoin none h1.ready ((hjoin.step h1.step).before (hr.trans_le hql)) q
  · -- The first break makes the join, with the mark that is reserved for it.
    rename_i hd
    refine (joined_emitBlock h hreserved.region hreserved.isRegion).bind ?_
    rintro join s1 ⟨γ1, h1, ha⟩
    have hbreakables := breakables_of_around ha
    rw [ends_bind, ends_modify]
    refine ends_bind.mpr (ends_pure.mpr ?_)
    let reach (b : Breakable) : Breakable := { b with destination := some join }
    let s2 : State := { s1 with breakables := replaceFirst (·.label = target.id) reach s1.breakables }
    have hlabels : List.Forall₂
        (fun b p => Reserved s1.nextTry s1.code γ1 b.landing p (· ∈ b.destination))
        s2.breakables P.labels := by
      simp only [s2, hbreakables]
      refine hreplace _ reach (fun _ _ h => h.grow h1.step.nextTry h1.step.toGrows) ?_
      exact ⟨hreserved.region, hreserved.isRegion.mono h1.step.nextTry,
        fun j hj => Option.some.inj hj ▸ h1.placed⟩
    rw [← hbreakables] at hb
    have hr : Ready o s2 γ1 P L := h1.ready.known
      { h1.ready.inv with regions := { h1.ready.inv.regions with labels := hlabels } } rfl
      ((destinations_reach hb hd join).append_right _)
    have hp : Pass s1 γ1 s2 γ1 :=
      ⟨⟨.refl _ _, le_rfl⟩, ⟨later_reach hb hd join, (Later.refl s1).switches⟩, .of_eq rfl rfl⟩
    refine (built_jumpTo hfs hr room fun s3 γ3 f r hr h3 => ?_).mono ?_
    · have hjoin : Placed Op.isJoin s3.code γ3 l join := h1.placed.grow h3.step.toGrows
      exact built_gotoJoin none h3.ready (hjoin.before (hr.trans_le hql)) q
    · rintro f s3 ⟨γ3, h3⟩
      exact ⟨γ3, h3.after (h1.toPass.trans hp)⟩

/-! ## Returns -/

theorem lowers_giveBackThrough (place : Position) (hfs : ∀ z ∈ fs, Finalizes o z)
    [hm : Makes o m 0 1] : Lowers o true (giveBackThrough place fs m) := by
  intro env s γ P L p q h room
  obtain ⟨p1, room1, room2⟩ := room.split
  unfold giveBackThrough
  refine (hm.made env s γ P _ p p1 h.inv room1).bind ?_
  rintro f s1 ⟨γ1, h1⟩
  rw [h.empty] at h1
  -- The value is given back at once, or waits until the finalizers are done.
  have hrest : ∀ ms : List (LowerM Fragment), ∀ s2 r, Same s1 s2 → Room o true env P p1 r →
      Continues o (fun f => chain f ms) 1 0 →
      Ends env (chain f ms) s2 fun g s' => ∃ γ', Built o s γ P L p r g s' γ' := by
    intro ms s2 r same room hms
    refine (hms.made env s2 γ1 P _ p p1 r f (h1.inv.congr same) room
      (h1.spans.calm (same.calm γ1))).mono ?_
    rintro g s3 ⟨γ3, h3⟩
    exact ⟨γ3, .of_made h ((h1.same same).trans h3)⟩
  split
  · rename_i hclosed
    refine (ends_pop (.refl s1)).bind fun top s2 ht => ends_pure.mpr ⟨γ1, ?_⟩
    have hm := h1.trans (made_taken h1.inv room2.le ht)
    have hc : Calm s γ s2 γ1 := ⟨hm.step, hm.effect.eq, hm.around⟩
    refine ⟨hc.pass, h.calm hc hm.inv.forget, ?_⟩
    rw [ht.code]
    exact h1.spans.anywhere hclosed
  split
  · exact hrest [giveBack] s1 q (.refl s1) room2 inferInstance
  refine ends_silent fun e s2 same2 => ?_
  split
  · exact ends_malformed
  refine ends_silent fun pending s3 same3 => ?_
  have same := same2.trans same3
  obtain ⟨p2, room2, room3⟩ := room2.split
  obtain ⟨p3, room3, room4⟩ := room3.split
  change Ends env (chain f ([storeLocal pending, drop] ++ [finalizersTo none (-1) fs]) >>= _) s3 _
  rw [chain_append, bind_assoc]
  refine (hrest [storeLocal pending, drop] s3 p2 same room2 inferInstance).bind ?_
  rintro f4 s4 ⟨γ4, h4⟩
  refine Ends.bind (M := fun g t => ∃ r γ', Built o s γ P L p (p3.inRegion r) g t γ') ?_ ?_
  · rw [chain_one]
    refine (built_finalizersTo none (-1) hfs h4.ready room3).bind ?_
    rintro g s5 ⟨r, γ5, h5⟩
    refine (built_append h5.ready.swap (h4.spans.step h5.step) h5.spans).mono ?_
    rintro k s6 ⟨γ6, h6⟩
    exact ⟨r, γ6, (h6.after h5.toPass).after h4.toPass⟩
  · rintro g s5 ⟨r, γ5, h5⟩
    split
    · have hload : (calculus o false).Adds (fun f => chain f [loadLocal pending]) 0 1 := inferInstance
      change Ends env (chain g ([loadLocal pending] ++ [giveBack])) s5 _
      rw [chain_append]
      refine (hload.made env s5 γ5 P _ p (p3.inRegion r) (q.inRegion r) g h5.ready.inv
        (room4.unbound P.tries r) (by rw [h5.ready.empty]; exact h5.spans)).bind ?_
      rintro g' s6 ⟨γ6, h6⟩
      rw [chain_one]
      refine (made_behind h6.spans (made_giveBack h6.inv (q.inRegion r) q)).mono ?_
      rintro k s7 ⟨γ7, h7⟩
      exact ⟨γ7, (Built.of_made h5.ready.forget (h6.trans h7)).after h5.toPass⟩
    · rename_i hopen
      refine ends_pure.mpr ⟨γ5, h5.toPass, h5.ready, h5.spans.anywhere ?_⟩
      simpa [Fragment.isClosed] using hopen

end Flowgraph.Lowering.Assembly
