import Flowgraph.Lowering.Loop
import Flowgraph.Lowering.Switch
import Flowgraph.Proofs.Lowering.Assembly.Expression
import Flowgraph.Proofs.Lowering.Rules
import Flowgraph.Proofs.Lowering.Straight

/-! # Between statements

The stack is empty between statements, so jumps can lead from any statement to any
other. The joins that breaks and continues have asked for are in hand until the
labeled statement or the switch is done.
-/

namespace Flowgraph.Lowering.Assembly

open Flowgraph.Graph (Code Fragment Op)

/-- The joins that the state knows of. -/
def joins (s : State) : List Nat :=
  s.breakables.filterMap (·.destination) ++ s.switches.flatMap fun t => t.destinations.map (·.2)

def pending (s : State) : List Fragment := (joins s).map .single

/-- The state between two statements. -/
structure Ready (ordered : Bool) (s : State) (γ : Notes) (P : Kept) (L : List Fragment) : Prop where
  inv : Inv ordered s γ P (L ++ pending s)
  empty : values s = []

/-- Jumps that come later find the same joins. -/
structure Later (s s' : State) : Prop where
  breakables : List.Forall₂ (fun b b' => b'.label = b.label ∧
    ∀ j, b.destination = some j → b'.destination = some j) s.breakables s'.breakables
  switches : List.Forall₂ (fun t t' => t'.cases = t.cases ∧
    ∀ k j, t.joinOf k = some j → t'.joinOf k = some j) s.switches s'.switches

/-- The instruction at `i` jumps to the case with the id, of a switch around the current place. -/
def Heads (s : State) (i id : Nat) : Prop :=
  ∃ j t index, s.code.op i = .goto j ∧ t ∈ s.switches ∧ t.find id = some index ∧
    t.joinOf index = some j

/-- What was noted on the way is right. -/
structure Recorded (s s' : State) : Prop where
  kept : s.sources.switches ⊆ s'.sources.switches
  switches : ∀ n ∈ s'.sources.switches, n ∈ s.sources.switches ∨ Graph.Dispatches s'.code n
  continues : ∀ k ∈ s'.sources.continues, k ∈ s.sources.continues ∨
    ∃ i, k.1 = some i ∧ s.code.size ≤ i ∧ i < s'.code.size ∧
      (Heads s' i k.2 ∨ ∃ n ∈ s'.sources.switches, Graph.ContinuesTo s'.code n i k.2)

/-- What statements leave as it is. -/
structure Pass (s : State) (γ : Notes) (s' : State) (γ' : Notes) : Prop where
  step : Step s γ s' γ'
  later : Later s s'
  recorded : Recorded s s'

/-- From `s` on, the code of a statement was made. It is entered with the note `a` and left at
`q`. -/
structure Built (ordered : Bool) (s : State) (γ : Notes) (P : Kept) (L : List Fragment) (a : Note)
    (q : Mark) (f : Fragment) (s' : State) (γ' : Notes) : Prop extends Pass s γ s' γ' where
  ready : Ready ordered s' γ' P (f :: L)
  spans : Spans ordered s'.code γ' a f q

/-- From `s` on, a join was made at `p`. -/
structure Joined (ordered : Bool) (s : State) (γ : Notes) (P : Kept) (L : List Fragment) (p : Mark)
    (i : Nat) (s' : State) (γ' : Notes) : Prop extends Pass s γ s' γ' where
  ready : Ready ordered s' γ' P (.single i :: L)
  placed : Placed Op.isJoin s'.code γ' p i

/-- The step makes code that leaves nothing on the stack. -/
def Lowers (ordered bound : Bool) (m : LowerM Fragment) : Prop :=
  ∀ env s γ P L p q, Ready ordered s γ P L → Room ordered bound env P p q →
    Ends env m s fun f s' => ∃ γ', Built ordered s γ P L p q f s' γ'

/-- The step puts such code behind the fragment it is given. -/
def Follows (ordered bound : Bool) (k : Fragment → LowerM Fragment) : Prop :=
  ∀ env s γ P L a p q f, Ready ordered s γ P (f :: L) → Room ordered bound env P p q →
    Spans ordered s.code γ a f p → Ends env (k f) s fun g s' => ∃ γ', Built ordered s γ P L a q g s' γ'

section Rules

variable {α : Type} {o b : Bool} {env : Env} {m : LowerM Fragment} {ms ms' : List (LowerM Fragment)}
  {k k' : Fragment → LowerM Fragment} {s s' s'' : State} {γ γ' γ'' : Notes} {P : Kept}
  {L L' : List Fragment} {a : Note} {p q r : Mark} {f g : Fragment} {i : Nat}

theorem Later.refl (s : State) : Later s s :=
  ⟨List.forall₂_same.mpr fun _ _ => ⟨rfl, fun _ h => h⟩,
    List.forall₂_same.mpr fun _ _ => ⟨rfl, fun _ _ h => h⟩⟩

theorem Later.of_eq (hb : s'.breakables = s.breakables) (hw : s'.switches = s.switches) :
    Later s s' :=
  ⟨hb ▸ (Later.refl s).breakables, hw ▸ (Later.refl s).switches⟩

theorem forall₂_trans {R : α → α → Prop} (hR : ∀ a b c, R a b → R b c → R a c) {l l' l'' : List α}
    (h : List.Forall₂ R l l') (h' : List.Forall₂ R l' l'') : List.Forall₂ R l l'' := by
  induction h generalizing l'' with
  | nil => exact h'
  | cons ha _ ih =>
    cases h' with
    | cons hb hl => exact .cons (hR _ _ _ ha hb) (ih hl)

theorem Later.trans (h : Later s s') (h' : Later s' s'') : Later s s'' where
  breakables := forall₂_trans (fun _ _ _ h h' => ⟨h'.1.trans h.1, fun j hj => h'.2 j (h.2 j hj)⟩)
    h.breakables h'.breakables
  switches := forall₂_trans (fun _ _ _ h h' => ⟨h'.1.trans h.1, fun k j hj => h'.2 k j (h.2 k j hj)⟩)
    h.switches h'.switches

theorem Step.extends (h : Step s γ s' γ') : s.code.Extends s'.code :=
  Code.extends_of_ops h.size h.ops h.links

theorem Recorded.of_eq (h : s'.sources.switches = s.sources.switches)
    (h' : s'.sources.continues = s.sources.continues) : Recorded s s' where
  kept := h ▸ List.Subset.refl _
  switches _ hn := .inl (h ▸ hn)
  continues _ hk := .inl (h' ▸ hk)

theorem Later.mem_switches (h : Later s s') {t : SwitchTargets} (ht : t ∈ s.switches) :
    ∃ t' ∈ s'.switches, t'.cases = t.cases ∧ ∀ k j, t.joinOf k = some j → t'.joinOf k = some j := by
  obtain ⟨i, hi, rfl⟩ := List.mem_iff_getElem.mp ht
  obtain ⟨hlen, hget⟩ := List.forall₂_iff_get.mp h.switches
  exact ⟨_, List.getElem_mem (hlen ▸ hi), hget i hi (hlen ▸ hi)⟩

theorem find_congr {t t' : SwitchTargets} (h : t'.cases = t.cases) (id : Nat) :
    t'.find id = t.find id := by
  unfold SwitchTargets.find
  rw [h]

theorem Heads.later {id : Nat} (h : Heads s i id) (hl : Later s s')
    (hc : s.code.Extends s'.code) : Heads s' i id := by
  obtain ⟨j, t, index, hop, ht, hfind, hj⟩ := h
  obtain ⟨t', ht', hcases, hjoins⟩ := hl.mem_switches ht
  exact ⟨j, t', index, hc.op_eq hop rfl, ht', (find_congr hcases id).trans hfind, hjoins index j hj⟩

theorem Recorded.trans (h : Recorded s s') (h' : Recorded s' s'') (hl : Later s' s'')
    (hsize : s.code.size ≤ s'.code.size) (hc : s'.code.Extends s''.code) : Recorded s s'' where
  kept := List.Subset.trans h.kept h'.kept
  switches n hn := by
    rcases h'.switches n hn with hn | hn
    · exact (h.switches n hn).imp_right fun hd => hd.mono hc
    · exact .inr hn
  continues k hk := by
    rcases h'.continues k hk with hk | hk
    · refine (h.continues k hk).imp_right ?_
      rintro ⟨i, hi, hfrom, hto, hk⟩
      refine ⟨i, hi, hfrom, hto.trans_le hc.size, hk.imp (fun hk => hk.later hl hc) ?_⟩
      rintro ⟨n, hn, hcont⟩
      exact ⟨n, h'.kept hn, hcont.mono hc⟩
    · obtain ⟨i, hi, hfrom, hk⟩ := hk
      exact .inr ⟨i, hi, hsize.trans hfrom, hk⟩

theorem Pass.refl (s : State) (γ : Notes) : Pass s γ s γ := ⟨.refl _ _, .refl s, .of_eq rfl rfl⟩

theorem Pass.trans (h : Pass s γ s' γ') (h' : Pass s' γ' s'' γ'') : Pass s γ s'' γ'' :=
  ⟨h.step.trans h'.step, h.later.trans h'.later,
    h.recorded.trans h'.recorded h'.later h.step.size h'.step.extends⟩

theorem Pass.of_around (h : Step s γ s' γ') (ha : around s' = around s) : Pass s γ s' γ' :=
  ⟨h, .of_eq (breakables_of_around ha) (switches_of_around ha),
    .of_eq (layouts_of_around ha) (continues_of_around ha)⟩

theorem Calm.pass (h : Calm s γ s' γ') : Pass s γ s' γ' := .of_around h.step h.around

theorem Built.after (h : Built o s' γ' P L a q f s'' γ'') (hp : Pass s γ s' γ') :
    Built o s γ P L a q f s'' γ'' := ⟨hp.trans h.toPass, h.ready, h.spans⟩

theorem pending_congr (hb : s'.breakables = s.breakables) (hw : s'.switches = s.switches) :
    pending s' = pending s := by
  simp only [pending, joins, hb, hw]

theorem Ready.calm (h : Ready o s γ P L) (hc : Calm s γ s' γ')
    (hi : Inv o s' γ' P (L' ++ pending s)) : Ready o s' γ' P L' where
  inv := by rwa [pending_congr hc.breakables hc.switches]
  empty := hc.values.trans h.empty

theorem Ready.same (h : Ready o s γ P L) (hs : Same s s') : Ready o s' γ P L :=
  h.calm (hs.calm γ) (h.inv.congr hs)

theorem Ready.perm (h : Ready o s γ P L) (hp : L.Perm L') : Ready o s γ P L' :=
  { h with inv := h.inv.perm (hp.append_right _) }

theorem Ready.swap (h : Ready o s γ P (f :: g :: L)) : Ready o s γ P (g :: f :: L) :=
  h.perm (.swap g f L)

theorem Ready.forget (h : Ready o s γ P (f :: L)) : Ready o s γ P L :=
  { h with inv := Inv.forget (L := L ++ pending s) h.inv }

theorem Ready.closed (h : Ready o s γ P (f :: L)) : Ready o s γ P (f.closed :: L) :=
  { h with inv := Inv.closed (L := L ++ pending s) h.inv }

theorem Ready.entryExit (h : Ready o s γ P (f :: g :: L)) :
    Ready o s γ P (⟨f.entry, g.exit⟩ :: L) :=
  { h with inv := Inv.entryExit (L := L ++ pending s) h.inv }

theorem Ready.exitingAt (h : Ready o s γ P (f :: .single i :: L)) :
    Ready o s γ P (f.exitingAt i :: L) := h.entryExit

theorem Ready.empty_cons (h : Ready o s γ P L) : Ready o s γ P (.empty :: L) :=
  { h with inv := Inv.empty (L := L ++ pending s) h.inv }

theorem Built.of_made (h : Ready o s γ P L) (hm : Made o s γ P (L ++ pending s) a 0 0 q f s' γ') :
    Built o s γ P L a q f s' γ' where
  toPass := hm.calm.pass
  ready := h.calm hm.calm hm.inv
  spans := by
    have := hm.spans
    rwa [hm.calm.values, h.empty] at this

theorem Built.until (h : Built o s γ P L a p f s' γ') (hq : p ≤ q) : Built o s γ P L a q f s' γ' :=
  { h with spans := h.spans.until hq }

/-! ## Pieces -/

theorem Makes.lowers (hm : (calculus o b).Made m 0 0) : Lowers o b m := by
  intro env s γ P L p q h room
  refine (hm.made env s γ P (L ++ pending s) p q h.inv room).mono ?_
  rintro f s' ⟨γ', hf⟩
  rw [h.empty] at hf
  exact ⟨γ', .of_made h hf⟩

theorem Continues.follows (hk : (calculus o b).Adds k 0 0) : Follows o b k := by
  intro env s γ P L a p q f h room sp
  have hs : Ready o s γ P L := h.forget
  refine (hk.made env s γ P (L ++ pending s) a p q f h.inv room (by rwa [h.empty])).mono ?_
  rintro g s' ⟨γ', hg⟩
  exact ⟨γ', .of_made hs hg⟩

theorem built_pure (h : Ready o s γ P (f :: L)) (sp : Spans o s.code γ a f q) :
    Ends env (pure f) s fun f s' => ∃ γ', Built o s γ P L a q f s' γ' :=
  ends_pure.mpr ⟨γ, .refl s γ, h, sp⟩

theorem Built.pure (h : Built o s γ P L a q f s' γ') :
    Ends env (pure f) s' fun f s' => ∃ γ', Built o s γ P L a q f s' γ' :=
  ends_pure.mpr ⟨γ', h⟩

theorem follows_pure : Follows o b pure := fun _ _ _ _ _ _ _ _ _ h room sp =>
  built_pure h (sp.until room.le)

theorem note_le (h : p ≤ q) : (p : Note) ≤ q := ⟨List.Subset.refl _, h⟩

theorem lowers_empty : Lowers o b (pure .empty) := fun _ _ _ _ _ _ _ h room =>
  built_pure h.empty_cons (spans_empty (note_le room.le))

theorem Lowers.bind (hm : Lowers o b m) (hk : Follows o b k) : Lowers o b (m >>= k) := by
  intro env s γ P L p q h room
  obtain ⟨r, room1, room2⟩ := room.split
  refine (hm env s γ P L p r h room1).bind ?_
  rintro f s1 ⟨γ1, h1⟩
  refine (hk env s1 γ1 P L p r q f h1.ready room2 h1.spans).mono ?_
  rintro g s2 ⟨γ2, h2⟩
  exact ⟨γ2, h2.after h1.toPass⟩

theorem Follows.trans (hk : Follows o b k) (hk' : Follows o b k') :
    Follows o b fun f => k f >>= k' := by
  intro env s γ P L a p q f h room sp
  obtain ⟨r, room1, room2⟩ := room.split
  refine (hk env s γ P L a p r f h room1 sp).bind ?_
  rintro g s1 ⟨γ1, h1⟩
  refine (hk' env s1 γ1 P L a r q g h1.ready room2 h1.spans).mono ?_
  rintro k s2 ⟨γ2, h2⟩
  exact ⟨γ2, h2.after h1.toPass⟩

theorem built_append {c : Note} (h : Ready o s γ P (f :: g :: L)) (hf : Spans o s.code γ a f c)
    (hg : Spans o s.code γ c g q) :
    Ends env (append f g) s fun k s' => ∃ γ', Built o s γ P L a q k s' γ' := by
  obtain ⟨hi, st, sp⟩ := Inv.append (L := L ++ pending s) h.inv hf hg
  exact ends_append.mpr ⟨γ, .of_around st rfl, ⟨hi, h.empty⟩, sp⟩

theorem built_behind (sp : Spans o s.code γ a f p)
    (h : Ends env m s fun g s' => ∃ γ', Built o s γ P (f :: L) p q g s' γ') :
    Ends env (m >>= append f) s fun g s' => ∃ γ', Built o s γ P L a q g s' γ' := by
  refine h.bind ?_
  rintro g s1 ⟨γ1, h1⟩
  refine (built_append h1.ready.swap (sp.step h1.step) h1.spans).mono ?_
  rintro k s2 ⟨γ2, h2⟩
  exact ⟨γ2, h2.after h1.toPass⟩

theorem Lowers.append (hm : Lowers o b m) : Follows o b fun f => m >>= append f :=
  fun env s γ P L _ p q f h room sp => built_behind sp (hm env s γ P (f :: L) p q h room)

theorem lowers_inOrder (h : Follows o b fun f => chain f ms) : Lowers o b (inOrder ms) :=
  fun env s γ P L p q hs room => h env s γ P L p p q .empty hs.empty_cons room (spans_empty le_rfl)

theorem Lowers.silent {x : LowerM α} {k : α → LowerM Fragment} [Silent x]
    (hk : ∀ y, Lowers o b (k y)) : Lowers o b (x >>= k) := by
  intro env s γ P L p q h room
  refine ends_silent fun y s1 same => ?_
  refine (hk y env s1 γ P L p q (h.same same) room).mono ?_
  rintro f s2 ⟨γ2, h2⟩
  exact ⟨γ2, h2.after (same.calm γ).pass⟩

theorem Follows.silent {x : LowerM α} {k : α → Fragment → LowerM Fragment} [Silent x]
    (hk : ∀ y, Follows o b (k y)) : Follows o b fun f => x >>= fun y => k y f := by
  intro env s γ P L a p q f h room sp
  refine ends_silent fun y s1 same => ?_
  refine (hk y env s1 γ P L a p q f (h.same same) room (sp.step (same.step γ))).mono ?_
  rintro g s2 ⟨γ2, h2⟩
  exact ⟨γ2, h2.after (same.calm γ).pass⟩

/-- Between statements, code is put together like elsewhere. -/
def rules (ordered bound : Bool) : Rules Same where
  Makes := Lowers ordered bound
  Continues := Follows ordered bound
  empty := lowers_empty
  stop h := fun env s _ _ _ _ _ _ _ => h env s _
  bind := .bind
  idle := .silent
  pure := follows_pure
  trans := .trans
  append := Lowers.append
  rest := .silent

theorem follows_chain (h : ∀ m ∈ ms, Lowers o b m) : Follows o b fun f => chain f ms :=
  (rules o b).chain h

theorem follows_append (h : Follows o b fun f => chain f ms) (h' : Follows o b fun f => chain f ms') :
    Follows o b fun f => chain f (ms ++ ms') := by
  simpa only [chain_append] using h.trans h'

/-! ## Entries -/

theorem Inv.sameEntry (h : Inv o s γ P (g :: L)) (he : f.isEmpty = false → g.entry = f.entry)
    (hx : g.exit = f.exit) : Inv o s γ P (f :: L) := by
  obtain ⟨_ | e, x⟩ := f
  · obtain ⟨entries, exits, entry, exit⟩ := h.hands
    obtain rfl : g.exit = x := hx
    refine { h with hands := ⟨?_, ?_, ?_, ?_⟩ }
    · exact entries.sublist ((List.sublist_cons_self _ L).filterMap _)
    · simpa only [List.filterMap_cons] using exits
    · rintro f (_ | ⟨_, hf⟩)
      · nofun
      · exact entry f (List.mem_cons_of_mem _ hf)
    · rintro f (_ | ⟨_, hf⟩)
      · exact exit g List.mem_cons_self
      · exact exit f (List.mem_cons_of_mem _ hf)
  · obtain rfl : g = ⟨some e, x⟩ := by
      obtain ⟨e', x'⟩ := g
      simpa using ⟨he rfl, hx⟩
    exact h

theorem Ready.sameEntry (h : Ready o s γ P (g :: L)) (he : f.isEmpty = false → g.entry = f.entry)
    (hx : g.exit = f.exit) : Ready o s γ P (f :: L) :=
  { h with inv := Inv.sameEntry (L := L ++ pending s) h.inv he hx }

/-! ## Jumps and blocks -/

theorem built_gotoJoin (origin : Option Graph.Origin) (h : Ready o s γ P L)
    (hi : Ahead Op.isJoin s.code γ p (Graph.Instruction.continues { op := .goto i, origin }) i)
    (q : Mark) : Ends env (gotoJoin i origin) s fun f s' => ∃ γ', Built o s γ P L p q f s' γ' := by
  refine (made_gotoJoin (p := p) origin h.inv (by rwa [h.empty]) q).mono ?_
  rintro f s' ⟨γ', hf⟩
  rw [h.empty] at hf
  exact ⟨γ', .of_made h hf⟩

theorem built_jump (h : Ready o s γ P (f :: L)) (sp : Spans o s.code γ a f p)
    (hi : Ahead Op.isJoin s.code γ p false i) (q : Mark) :
    Ends env (chain f [gotoJoin i]) s fun g s' => ∃ γ', Built o s γ P L a q g s' γ' := by
  rw [chain_one]
  exact built_behind sp (built_gotoJoin none h hi q)

theorem joined_makeJoin (h : Ready o s γ P L) (hp : P.tries.headD Graph.noTry = p.region) :
    Ends env makeJoin s fun i s' => ∃ γ', Joined o s γ P L p i s' γ' := by
  refine (begun_makeJoin h.inv hp).mono ?_
  rintro i s' ⟨γ', hb⟩
  have hplaced := hb.placed
  rw [hb.values, h.empty] at hplaced
  exact ⟨γ', hb.toCalm.pass, h.calm hb.toCalm hb.inv, hplaced⟩

theorem built_startingAt {kind : Op → Bool} (hk : Follows o b fun f => chain f ms)
    (h : Ready o s γ P (.single i :: L)) (room : Room o b env P p q)
    (hi : Placed kind s.code γ p i) :
    Ends env (startingAt i ms) s fun f s' => ∃ γ', Built o s γ P L p q f s' γ' :=
  hk env s γ P L p p q _ h room hi.spans

/-- From `s` on, a branch was made between statements. Its targets are at `q`. -/
structure Forked (ordered : Bool) (s : State) (γ : Notes) (P : Kept) (L : List Fragment) (a : Note)
    (q : Mark) (b : Branching) (s' : State) (γ' : Notes) : Prop extends Pass s γ s' γ' where
  ready : Ready ordered s' γ' P (.single b.yes :: .single b.no :: b.code :: L)
  code : Spans ordered s'.code γ' a b.code q
  yes : Placed Op.isTarget s'.code γ' q b.yes
  no : Placed Op.isTarget s'.code γ' q b.no

theorem Forked.of_branched {b : Branching} (h : Ready o s γ P L)
    (hb : Branched o s γ P (L ++ pending s) a 0 q b s' γ') : Forked o s γ P L a q b s' γ' := by
  have hc := hb.calm
  obtain ⟨inv, step, effect, code, yes, no, ha⟩ := hb
  have hv : values s' = [] := effect.eq.trans h.empty
  rw [hv] at code yes no
  exact ⟨hc.pass, h.calm hc inv, code, yes, no⟩

theorem forked_branchOnCondition {c : LowerM (Fragment × Bool)} [Decides o c] (h : Ready o s γ P L)
    (room : Room o true env P p q) :
    Ends env (branchOnCondition c) s fun b s' => ∃ γ', Forked o s γ P L p q b s' γ' := by
  refine (branched_branchOnCondition h.inv room).mono ?_
  rintro b s' ⟨γ', hb⟩
  rw [h.empty] at hb
  exact ⟨γ', .of_branched h hb⟩

theorem forked_testing (condition : Tree.Expr) (h : Ready o s γ P L) (room : Room o true env P p q) :
    Ends env (testing condition) s fun b s' => ∃ γ', Forked o s γ P L p q b s' γ' := by
  refine (forked_branchOnCondition h room).bind ?_
  rintro b s1 ⟨γ1, h1⟩
  refine ends_silent fun _ s2 same2 => ends_silent fun _ s3 same3 => ends_pure.mpr ⟨γ1, ?_⟩
  have same := same2.trans same3
  have st := same.step γ1
  exact ⟨h1.toPass.trans (same.calm γ1).pass, h1.ready.same same, h1.code.step st, h1.yes.step st,
    h1.no.step st⟩

end Rules

end Flowgraph.Lowering.Assembly
