import Flowgraph.Proofs.Lowering.Assembly.Emit
import Flowgraph.Proofs.Lowering.Discipline

/-! # Blocks and branches

A new block is noted with the values on the stack, and jumps lead to blocks that
need no more than there is. The two sides of a branch are blocks of their own.
-/

namespace Flowgraph.Lowering.Assembly

open Flowgraph.Graph (BlockKind Code Fragment Instruction Op Use)

/-- A block of some kind can be started at `p`. -/
structure Starts (n : Nat) (kind : Op → Bool) (k : BlockKind) (r : Int) (p : Mark) : Prop where
  kind : ∀ b, kind (.entry ⟨k, b, r⟩) = true
  root : ∀ b, (Op.entry ⟨k, b, r⟩).isRoot = false
  region : r = p.region
  isRegion : IsRegion n p.region
  founded : ∀ t guards a b, k = .handler t guards a b → p.region < t

/-- From `s` on, a block was started at `p`. -/
structure Begun (ordered : Bool) (kind : Op → Bool) (s : State) (γ : Notes) (P : Kept)
    (L : List Fragment) (p : Mark) (i : Nat) (s' : State) (γ' : Notes) : Prop
    extends Calm s γ s' γ' where
  inv : Inv ordered s' γ' P (.single i :: L)
  placed : Placed kind s'.code γ' ⟨Assembly.values s', p⟩ i

/-- From `s` on, a branch was made that takes `u` values from the stack. Its targets are at `q`. -/
structure Branched (ordered : Bool) (s : State) (γ : Notes) (P : Kept) (L : List Fragment) (a : Note)
    (u : Nat) (q : Mark) (b : Branching) (s' : State) (γ' : Notes) : Prop where
  inv : Inv ordered s' γ' P (.single b.yes :: .single b.no :: b.code :: L)
  step : Step s γ s' γ'
  effect : Effect u 0 (values s) (values s')
  code : Spans ordered s'.code γ' a b.code ⟨values s', q⟩
  yes : Placed Op.isTarget s'.code γ' ⟨values s', q⟩ b.yes
  no : Placed Op.isTarget s'.code γ' ⟨values s', q⟩ b.no
  around : around s' = around s

section Blocks

variable {o : Bool} {env : Env} {s t s' : State} {γ γ' : Notes} {P : Kept} {L : List Fragment}
  {T : List Nat} {a a' : Note} {p q r : Mark} {kind : Op → Bool} {i u v : Nat} {f : Fragment}
  {negated : Bool}

theorem isRegion_tries (hi : Inv o s γ P L) (hp : P.tries.headD Graph.noTry = p.region) :
    IsRegion s.nextTry p.region := hp ▸ isRegion_headD hi.regions.tries.2

theorem ends_emitBlock_taken {k : BlockKind} {r : Int} (hk : Starts s.nextTry kind k r p)
    (hi : Inv o s γ P L) (ht : Taken T s t) :
    Ends env (emitBlock k r) t fun i t' => ∃ s' γ', Taken T s' t' ∧ Inv o s' γ' P (.single i :: L) ∧
      Step s γ s' γ' ∧ values s' = values s ∧ values t' = values t ∧
      Placed kind s'.code γ' ⟨values t, p⟩ i ∧ around s' = around s ∧ i = s.code.size ∧
      s'.nextTry = s.nextTry ∧ s'.code.collect Op.sides = s.code.collect Op.sides := by
  rw [ends_emitBlock, ht.code, ht.nextBlock]
  let x : Instruction := { op := .entry ⟨k, s.nextBlock, r⟩, within := env.within }
  refine ⟨{ s with code := s.code.push x, nextBlock := s.nextBlock + 1 },
    Function.update γ s.code.size ⟨values t, p⟩, ?_, ?_, ⟨grows_push, le_rfl⟩, rfl, rfl, ?_, rfl, rfl,
    rfl, ?_⟩
  · exact ⟨⟨ht.handlers, ht.nextTry, ht.tries, ht.caught, ht.around⟩, rfl, ht.values, rfl⟩
  · have hfits : Fits s.nextTry s.code γ x ⟨values t, p⟩ :=
      { next := rfl, inputs := nofun, jump := nofun, sides := nofun, root := hk.root _, throws := nofun
        entry := by rintro e ⟨⟩; exact ⟨hk.region, hk.isRegion, hk.founded⟩, rethrow := nofun }
    refine hi.push hfits ?_ rfl ?_ (hi.blocks.cons rfl rfl) ⟨rfl, rfl, rfl, rfl, rfl⟩
    · rw [show x.op.sides = [] from rfl, List.append_nil]
      exact hi.sides
    · exact (show Unused ([] ++ values s) s.code from hi.unused).push (.refl _)
  · exact ⟨Nat.zero_lt_of_lt hi.sound.size, by simp, by rw [Code.op_push_size]; exact hk.kind _,
      Function.update_self ..⟩
  · exact Code.collect_push.trans (List.append_nil _)

theorem begun_emitBlock {k : BlockKind} {r : Int} (hk : Starts s.nextTry kind k r p)
    (hi : Inv o s γ P L) :
    Ends env (emitBlock k r) s fun i s' => ∃ γ', Begun o kind s γ P L p i s' γ' := by
  refine (ends_emitBlock_taken hk hi (.refl s)).mono ?_
  rintro i t' ⟨s', γ', ht, inv, step, hv, hv', placed, ha, -⟩
  have same : Same s' t' := ⟨ht.toBeside, ht.code, ht.values.symm, ht.nextBlock⟩
  rw [← ht.code, ← hv'] at placed
  exact ⟨γ', ⟨step.trans (same.step γ'), hv', ht.around.trans ha⟩, inv.congr same, placed⟩

theorem starts_join (hr : IsRegion s.nextTry p.region) :
    Starts s.nextTry Op.isJoin .join p.region p :=
  ⟨fun _ => rfl, fun _ => rfl, rfl, hr, by rintro _ _ _ _ ⟨⟩⟩

theorem begun_makeJoin (hi : Inv o s γ P L) (hp : P.tries.headD Graph.noTry = p.region) :
    Ends env makeJoin s fun i s' => ∃ γ', Begun o Op.isJoin s γ P L p i s' γ' := by
  unfold makeJoin currentTry
  rw [ends_bind, ends_bind, ends_get, ends_pure, hi.regions.tries.1, hp]
  exact begun_emitBlock (starts_join (isRegion_tries hi hp)) hi

/-! ## Jumps -/

theorem made_gotoJoin (origin : Option Graph.Origin) (hi : Inv o s γ P L)
    (h : Ahead Op.isJoin s.code γ ⟨values s, p⟩ (Instruction.continues { op := .goto i, origin }) i)
    (q : Mark) : Ends env (gotoJoin i origin) s fun f s' =>
      ∃ γ', Made o s γ P L ⟨values s, p⟩ 0 0 q f s' γ' := by
  unfold gotoJoin
  rw [ends_bind, ends_perform, ends_pure]
  let x : Instruction := { op := .goto i, origin, within := env.within }
  have hfits : Fits s.nextTry s.code γ x ⟨values s, p⟩ :=
    { next := rfl, inputs := nofun, jump := by rintro _ ⟨⟩; exact h, sides := nofun, root := rfl
      throws := nofun, entry := by rintro _ ⟨⟩, rethrow := by rintro _ _ _ ⟨⟩ }
  obtain ⟨γ', h'⟩ := made_instruction (q := p) (V := [])
    (f := (Fragment.single s.code.size).closed) (w := { s with code := s.code.push x }) hi (.refl s)
    le_rfl hfits rfl rfl .nil rfl rfl (.inl rfl) rfl ⟨rfl, rfl, rfl, rfl, rfl⟩ (.inr rfl)
  exact ⟨γ', { h' with spans := h'.spans.anywhere rfl }⟩

theorem made_jump (hi : Inv o s γ P (f :: L)) (sp : Spans o s.code γ a f ⟨values s, p⟩)
    (h : Ahead Op.isJoin s.code γ ⟨values s, p⟩ false i) (q : Mark) :
    Ends env (chain f [gotoJoin i]) s fun g s' => ∃ γ', Made o s γ P L a 0 0 q g s' γ' := by
  rw [chain_one]
  exact made_behind sp (made_gotoJoin none hi h q)

/-! ## Branches -/

theorem branched_branchIfSame (hi : Inv o s γ P L) (room : Room o true env P p q) :
    Ends env (branchIfSame negated) s fun b s' =>
      ∃ γ', Branched o s γ P L ⟨values s, p⟩ 2 q b s' γ' := by
  have hq := room.last
  have htarget : Starts s.nextTry Op.isTarget .target q.region q :=
    ⟨fun _ => rfl, fun _ => rfl, rfl, isRegion_tries hi hq, by rintro _ _ _ _ ⟨⟩⟩
  unfold branchIfSame makeTarget currentTry
  refine (ends_popUse (.refl s)).bind ?_
  rintro _ t1 ⟨right, rfl, ht1⟩
  refine (ends_popUse ht1).bind ?_
  rintro _ t2 ⟨left, rfl, ht2⟩
  rw [ends_bind, ends_bind, ends_bind, ends_get, ends_pure, ht2.tries, hi.regions.tries.1, hq]
  refine (ends_emitBlock_taken htarget hi ht2).mono ?_
  rintro yes t3 ⟨s3, γ3, ht3, inv3, st3, hv3, hvt3, hyes, ha3, rfl, hn3, hs3⟩
  rw [ends_bind, ends_bind, ends_bind, ends_get, ends_pure, ht3.tries, inv3.regions.tries.1, hq]
  refine (ends_emitBlock_taken (hn3 ▸ htarget) inv3 ht3).mono ?_
  rintro no t4 ⟨s4, γ4, ht4, inv4, st4, hv4, hvt4, hno, ha4, rfl, -, hs4⟩
  rw [ends_bind, ends_perform, ends_pure, ht4.code]
  let x : Instruction :=
    { op := .branch (comparison negated) (some left) (some right) s.code.size s3.code.size
      within := env.within }
  have hyes4 := hyes.step st4
  rw [← hvt3, ← hvt4] at hyes4
  rw [← hvt4] at hno
  have hvalues : values s4 = [right, left] ++ values t4 := ht4.values
  have hsub : values t4 ⊆ values s4 := hvalues ▸ List.subset_append_right _ _
  have hlt : s.code.size < s3.code.size := hyes.lt
  have hfits : Fits s4.nextTry s4.code γ4 x ⟨values s4, p⟩ := by
    refine ⟨rfl, ?_, by rintro _ ⟨⟩, ?_, rfl, nofun, by rintro _ ⟨⟩, by rintro _ _ _ ⟨⟩⟩
    · simp [x, Op.inputs, hvalues]
    · simp only [x, Op.sides, List.mem_cons, List.not_mem_nil, or_false]
      rintro _ (rfl | rfl)
      · exact hyes4.ahead hsub room.lt.2
      · exact hno.ahead hsub room.lt.2
  have hsides : (s4.code.collect Op.sides ++ x.op.sides).Nodup := by
    have hold : ∀ k ∈ s.code.collect Op.sides, k < s.code.size := fun k hk => by
      obtain ⟨j, -, hj⟩ := Code.mem_collect.mp hk
      exact (hi.sound.sides j k hj).lt
    rw [hs4, hs3]
    refine hi.sides.append (by simp [x, Op.sides]; omega) fun k hk hkx => ?_
    have := hold k hk
    simp only [x, Op.sides, List.mem_cons, List.not_mem_nil, or_false] at hkx
    omega
  have inv : Inv o { t4 with code := s4.code.push x } _ P _ := inv4.push hfits hsides rfl
    ((hvalues ▸ inv4.unused).push (.swap ..)) (ht4.nextBlock ▸ inv4.blocks.push rfl)
    (ht4.toBeside.trans ⟨rfl, rfl, rfl, rfl, rfl⟩)
  have st : Step s4 γ4 { t4 with code := s4.code.push x } _ :=
    ⟨grows_push (a := ⟨values s4, p⟩), ht4.nextTry.ge⟩
  have heffect := effect_append [right, left] [] (values t4)
  rw [← hvalues, hv4, hv3] at heffect
  refine ⟨_, ?_, (st3.trans st4).trans st, heffect, ⟨?_, nofun, nofun⟩, hyes4.step st, hno.step st,
    ht4.around.trans (ha4.trans ha3)⟩
  · exact inv.closed.perm (by grind)
  · rintro _ ⟨⟩
    refine ⟨by simp, ?_⟩
    rw [Function.update_self, hv4, hv3]

theorem Branched.behind {b : Branching} {s1 s2 : State} {γ1 γ2 : Notes}
    (h : Branched o s1 γ1 P (f :: L) ⟨values s1, r⟩ v q b s2 γ2)
    (h1 : Made o s γ P L a u v r f s1 γ1) :
    Ends env (append f b.code) s2 fun g s' =>
      ∃ γ', Branched o s γ P L a u q { b with code := g } s' γ' := by
  have hi : Inv o s2 γ2 P (f :: b.code :: .single b.yes :: .single b.no :: L) :=
    h.inv.perm (by grind)
  obtain ⟨inv, st, sp⟩ := hi.append (h1.spans.step h.step) h.code
  have heffect : Effect u 0 (values s) (values s2) := by
    simpa using h1.effect.trans h.effect
  exact ends_append.mpr ⟨γ2, inv.perm (by grind), (h1.step.trans h.step).trans st, heffect, sp,
    h.yes.step st, h.no.step st, h.around.trans h1.around⟩

theorem Branched.calm {b : Branching} (h : Branched o s γ P L a 0 q b s' γ') : Calm s γ s' γ' :=
  ⟨h.step, h.effect.eq, h.around⟩

theorem branched_branchOn {m : LowerM Fragment} [hm : Makes o m 0 1] (hi : Inv o s γ P L)
    (room : Room o true env P p q) :
    Ends env (branchOn m negated) s fun b s' =>
      ∃ γ', Branched o s γ P L ⟨values s, p⟩ 1 q b s' γ' := by
  obtain ⟨r, room1, room2⟩ := room.split
  refine (hm.made env s γ P L p r hi room1).bind ?_
  rintro f s1 ⟨γ1, h1⟩
  refine (branched_branchIfSame h1.inv room2).bind ?_
  rintro b s2 ⟨γ2, h2⟩
  rw [ends_bind]
  refine (h2.behind (u := 1) { h1 with effect := h1.effect.below (n := 1) ?_ }).mono
    fun g s' h => ends_pure.mpr h
  have := h1.effect.length
  have := h2.effect.enough
  omega

theorem branched_branchIfTrue (hi : Inv o s γ P L) (room : Room o true env P p q) :
    Ends env (branchIfTrue negated) s fun b s' =>
      ∃ γ', Branched o s γ P L ⟨values s, p⟩ 1 q b s' γ' :=
  branched_branchOn hi room

theorem branched_branchIfNull (hi : Inv o s γ P L) (room : Room o true env P p q) :
    Ends env branchIfNull s fun b s' => ∃ γ', Branched o s γ P L ⟨values s, p⟩ 1 q b s' γ' :=
  branched_branchOn hi room

abbrev Decides (ordered : Bool) (c : LowerM (Fragment × Bool)) : Prop :=
  (calculus ordered true).Decides c

theorem decided {c : LowerM (Fragment × Bool)} [hc : Decides o c] (hi : Inv o s γ P L)
    (room : Room o true env P p q) :
    Ends env c s fun x s' => ∃ γ', Made o s γ P L ⟨values s, p⟩ 0 1 q x.1 s' γ' := by
  have h := hc.made env s γ P L p q hi room
  rw [ends_bind] at h
  exact h.mono fun x t ht => ends_pure.mp ht

theorem branched_branchOnCondition {c : LowerM (Fragment × Bool)} [Decides o c] (hi : Inv o s γ P L)
    (room : Room o true env P p q) :
    Ends env (branchOnCondition c) s fun b s' =>
      ∃ γ', Branched o s γ P L ⟨values s, p⟩ 0 q b s' γ' := by
  obtain ⟨r, room1, room2⟩ := room.split
  refine (decided hi room1).bind ?_
  rintro ⟨f, negated⟩ s1 ⟨γ1, h1⟩
  refine (branched_branchIfTrue h1.inv room2).bind ?_
  rintro b s2 ⟨γ2, h2⟩
  rw [ends_bind]
  exact (h2.behind h1).mono fun g s' h => ends_pure.mpr h

theorem made_present {ms : List (LowerM Fragment)} {g : Fragment}
    [hk : Continues o (fun f => chain f ms) u v] (hi : Inv o s γ P (g :: f :: L))
    (room : Room o true env P p q) (hf : Spans o s.code γ a f a')
    (hg : Spans o s.code γ a' g ⟨values s, p⟩) :
    Ends env (chain f (pure g :: ms)) s fun h s' => ∃ γ', Made o s γ P L a u v q h s' γ' := by
  obtain ⟨hi', st, sp⟩ := hi.swap.append hf hg
  rw [chain_pure, ends_bind, ends_append]
  refine (hk.made env _ γ P L a p q _ hi' room sp).mono ?_
  rintro h s' ⟨γ', h'⟩
  exact ⟨γ', { h' with step := st.trans h'.step }⟩

theorem made_startingAt {ms : List (LowerM Fragment)} [hk : Continues o (fun f => chain f ms) u v]
    (hi : Inv o s γ P (.single i :: L)) (room : Room o true env P p q)
    (h : Placed kind s.code γ ⟨values s, p⟩ i) :
    Ends env (startingAt i ms) s fun f s' =>
      ∃ γ', Made o s γ P L ⟨values s, p⟩ u v q f s' γ' :=
  hk.made env s γ P L _ p q _ hi room h.spans

end Blocks

end Flowgraph.Lowering.Assembly
