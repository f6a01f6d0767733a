import Flowgraph.Proofs.Lowering.Filled
import Flowgraph.Proofs.Lowering.Held
import Flowgraph.Proofs.Lowering.Trace.Tells

/-! # Silent code

In the code of an expression that throws nothing control meets nothing, except for what
is noted at the entry. All ways through the code lead behind it.
-/

namespace Flowgraph.Lowering.Trace

open Flowgraph.Graph (BlockKind Code Event Fragment Instruction Op Origin)

/-- Code was added. Nothing was noted, and no label was reached. -/
structure Quiet (s t : State) : Prop where
  code : s.code.Extends t.code
  sources : t.sources = s.sources
  breakables : t.breakables = s.breakables

/-- A fragment of code from `lo` on, in which nothing is met apart from what is noted at the
entry, if nothing else is noted there. -/
structure Silent (lo : Nat) (c : Code) (f : Fragment) : Prop where
  entry : ∀ e, f.entry = some e → lo ≤ e ∧ e < c.size
  tells : ∀ {o w n T i}, c.Extends w.code →
    (∀ x, lo ≤ x → x < c.size → f.entry ≠ some x → w.events x = []) →
    w.code.Through f (Tells o w n T) i →
    Tells o w n (fun met => T (met ++ f.entry.elim [] w.events)) i

/-- From `s` on, silent code was made. -/
structure Emits (s : State) (L : List Fragment) (f : Fragment) (t : State) : Prop where
  quiet : Quiet s t
  held : Held t.code (f :: L)
  silent : Silent s.code.size t.code f

/-- From `s` on, a block was started. -/
structure Starts (s : State) (L : List Fragment) (i : Nat) (t : State) : Prop
    extends Emits s L (.single i) t where
  place : i = s.code.size
  goes : (t.code.op i).isTerminator = false

/-- The step makes silent code. -/
def Makes (m : LowerM Fragment) : Prop :=
  ∀ env s L, Held s.code L → Ends env m s (Emits s L)

/-- The step puts silent code behind a fragment. -/
def Continues (k : Fragment → LowerM Fragment) : Prop :=
  ∀ env lo s L f, lo ≤ s.code.size → Held s.code (f :: L) → Silent lo s.code f →
    Ends env (k f) s fun g t => Quiet s t ∧ Held t.code (g :: L) ∧ Silent lo t.code g

section Rules

variable {α : Type} {env : Env} {s s' t : State} {c d : Code} {f g : Fragment}
  {L : List Fragment} {m m' : LowerM Fragment} {ms : List (LowerM Fragment)}
  {k k' : Fragment → LowerM Fragment} {op : Op} {origin : Option Origin} {lo i j : Nat}

theorem Quiet.refl (s : State) : Quiet s s := ⟨.refl _, rfl, rfl⟩

theorem Quiet.trans (h : Quiet s s') (h' : Quiet s' t) : Quiet s t :=
  ⟨h.code.trans h'.code, h'.sources.trans h.sources, h'.breakables.trans h.breakables⟩

theorem Quiet.size (h : Quiet s t) : s.code.size ≤ t.code.size := h.code.size

theorem quiet_of_same (h : Same s t) (hs : t.sources = s.sources) : Quiet s t :=
  ⟨h.code ▸ .refl _, hs, h.breakables⟩

/-! ## Instructions -/

theorem isTerminator_eq (h : c.Extends d) (hi : i < c.size) :
    (d.op i).isTerminator = (c.op i).isTerminator := by
  rcases h.op_or hi with hop | ⟨e, e', hop, hop'⟩
  · rw [hop]
  · rw [hop, hop']
    rfl

theorem after_linked (h : (c.op i).isTerminator = false) (hij : c.Linked i j) :
    c.after i = [j] := by
  rw [Code.after, h, show (c.get i).next = some j from hij]
  rfl

theorem after_goto (h : c.op i = .goto j) : c.after i = [j] := by
  rw [Code.after, h]
  rfl

theorem Silent.mono (h : Silent lo c f) (hd : c.Extends d) : Silent lo d f where
  entry e he := (h.entry e he).imp_right fun hlt => hlt.trans_le hd.size
  tells hw hk := h.tells (hd.trans hw) fun x hx hlt => hk x hx (hlt.trans_le hd.size)

theorem Silent.from {lo' : Nat} (h : Silent lo c f) (hlo : lo' ≤ lo) : Silent lo' c f where
  entry e he := (h.entry e he).imp_left hlo.trans
  tells hw hk := h.tells hw fun x hx => hk x (hlo.trans hx)

/-- If nothing is noted at the entry either, nothing is met at all. -/
theorem Silent.tells_self {o : Oracle} {w : Finished} {n : Nat} {T : Tale} (h : Silent lo c f)
    (hw : c.Extends w.code) (hk : ∀ x, lo ≤ x → x < c.size → w.events x = [])
    (hi : w.code.Through f (Tells o w n T) i) : Tells o w n T i := by
  have htells := h.tells hw (fun x hx hlt _ => hk x hx hlt) hi
  cases he : f.entry with
  | none => simpa [he] using htells
  | some e =>
    have hke := hk e (h.entry e he).1 (h.entry e he).2
    simpa [he, hke] using htells

theorem silent_empty (lo : Nat) (c : Code) : Silent lo c .empty :=
  ⟨nofun, fun {_ _ _ T _} _ _ hi => by simpa [Fragment.empty] using show Tells _ _ _ T _ from hi⟩

theorem silent_single (hlo : lo ≤ i) (hi : i < c.size) (hgoes : (c.op i).isTerminator = false) :
    Silent lo c (.single i) where
  entry := by
    rintro _ ⟨⟩
    exact ⟨hlo, hi⟩
  tells hw _ := by
    rintro ⟨rfl, j, hj, hT⟩
    rw [← isTerminator_eq hw hi] at hgoes
    exact tells_next (after_linked hgoes hj) (hT.mono (Nat.sub_le _ 1))

theorem emits_push {y : Instruction} (h : Held s.code L) (hy : y.next = none)
    (hgoes : y.op.isTerminator = false) (hcode : t.code = s.code.push y)
    (hsources : t.sources = s.sources) (hbreakables : t.breakables = s.breakables) :
    Emits s L (.single s.code.size) t := by
  refine ⟨⟨hcode ▸ extends_push _ _, hsources, hbreakables⟩, hcode ▸ h.push hy, ?_⟩
  rw [hcode]
  exact silent_single le_rfl (by simp) (by rwa [Code.op_push_size])

theorem goes_straight (h : straight op = true) : op.isTerminator = false := by
  simpa using (Bool.and_eq_true_iff.mp h).2

theorem starts_emitBlock (kind : BlockKind) (tryIndex : Int) (h : Held s.code L) :
    Ends env (emitBlock kind tryIndex) s (Starts s L) :=
  ends_emitBlock.mpr ⟨emits_push h rfl rfl rfl rfl rfl, rfl, by rw [Code.op_push_size]; rfl⟩

theorem starts_makeTarget (h : Held s.code L) : Ends env makeTarget s (Starts s L) := by
  unfold makeTarget currentTry
  rw [ends_bind, ends_bind, ends_get, ends_pure]
  exact starts_emitBlock _ _ h

theorem starts_makeJoin (h : Held s.code L) : Ends env makeJoin s (Starts s L) := by
  unfold makeJoin currentTry
  rw [ends_bind, ends_bind, ends_get, ends_pure]
  exact starts_emitBlock _ _ h

/-! ## Sequences -/

theorem Silent.append (hf : Silent lo c f) (hc : c.Extends d) (hg : Silent c.size d g)
    (h : Held d (f :: g :: L)) (hlo : lo ≤ c.size) :
    Silent lo (f.append g d).2 (f.append g d).1 := by
  obtain ⟨hext, -, hthrough⟩ := h.append
  have hdc := hc.size
  cases hfe : f.entry with
  | none =>
    obtain ⟨_, _⟩ := f
    obtain rfl : _ = none := hfe
    exact hg.from hlo
  | some e =>
    have hentry : (f.append g d).1.entry = some e :=
      (append_entry (by rw [Fragment.isEmpty, hfe]; rfl)).trans hfe
    have he := hf.entry e hfe
    refine ⟨fun e' he' => ?_, fun {o w n T i} hw hk hi => ?_⟩
    · obtain rfl := Option.some.inj (hentry.symm.trans he')
      exact ⟨he.1, he.2.trans_le (hdc.trans hext.size)⟩
    · rw [hentry] at hk ⊢
      have hsilent : ∀ x, c.size ≤ x → x < d.size → w.events x = [] := fun x hx hlt =>
        hk x (hlo.trans hx) (hlt.trans_le hext.size) fun h => by
          obtain rfl := Option.some.inj h
          exact absurd he.2 (Nat.not_lt.mpr hx)
      have hnext := (hthrough hw hi).mono fun j => hg.tells_self (hext.trans hw) hsilent
      rw [← hfe] at hk ⊢
      refine hf.tells (hc.trans (hext.trans hw)) (fun x hx hlt => hk x hx ?_) hnext
      exact hlt.trans_le (hdc.trans hext.size)

theorem Makes.bind (hm : Makes m) (hk : Continues k) : Makes (m >>= k) := fun env s L h =>
  (hm env s L h).bind fun f s1 h1 =>
    (hk env _ s1 L f h1.quiet.size h1.held h1.silent).mono fun _ _ ⟨hq, hheld, hs⟩ =>
      ⟨h1.quiet.trans hq, hheld, hs⟩

theorem Continues.trans (hk : Continues k) (hk' : Continues k') : Continues fun f => k f >>= k' :=
  fun env lo s L f hlo h hf => (hk env lo s L f hlo h hf).bind fun g s1 ⟨hq, hheld, hs⟩ =>
    (hk' env lo s1 L g (hlo.trans hq.size) hheld hs).mono fun _ _ ⟨hq', h'⟩ => ⟨hq.trans hq', h'⟩

theorem Emits.append (hlo : lo ≤ s.code.size) (hf : Silent lo s.code f)
    (hg : Emits s (f :: L) g t) : Ends env (append f g) t fun h t' =>
      Quiet s t' ∧ Held t'.code (h :: L) ∧ Silent lo t'.code h := by
  obtain ⟨hext, hheld, -⟩ := hg.held.swap.append
  exact ends_append.mpr ⟨hg.quiet.trans ⟨hext, rfl, rfl⟩, hheld,
    hf.append hg.quiet.code hg.silent hg.held.swap hlo⟩

theorem Makes.append (hm : Makes m) : Continues fun f => m >>= append f :=
  fun env _ s L f hlo h hf => (hm env s (f :: L) h).bind fun _ _ hg => hg.append hlo hf

theorem Makes.idle {r : LowerM α} {k : α → LowerM Fragment} [Idle r] (hk : ∀ a, Makes (k a)) :
    Makes (r >>= k) := by
  intro env s L h
  refine (Idle.ends env s).bind ?_
  rintro a s1 ⟨same, hs⟩
  refine (hk a env s1 L (same.code ▸ h)).mono fun f t hf => ?_
  exact ⟨(quiet_of_same same hs).trans hf.quiet, hf.held, same.code ▸ hf.silent⟩

theorem Continues.idle {r : LowerM α} {k : α → Fragment → LowerM Fragment} [Idle r]
    (hk : ∀ a, Continues (k a)) : Continues fun f => r >>= fun a => k a f := by
  intro env lo s L f hlo h hf
  refine (Idle.ends env s).bind ?_
  rintro a s1 ⟨same, hs⟩
  rw [← same.code] at hlo h hf
  exact (hk a env lo s1 L f hlo h hf).mono fun g t ⟨hq, hg⟩ =>
    ⟨(quiet_of_same same hs).trans hq, hg⟩

/-- Straight code is silent. -/
def pieces : Pieces Unmoved where
  Makes := Makes
  Continues := Continues
  Closes := False
  throws := true
  empty _ s _ h := ends_pure.mpr ⟨.refl s, h.empty, silent_empty _ _⟩
  stop h env s _ _ := h env s _
  bind := .bind
  idle := .idle
  pure _ _ s _ _ _ h hf := ends_pure.mpr ⟨.refl s, h, hf⟩
  trans := .trans
  append := Makes.append
  rest := .idle
  define h _ _ _ hs :=
    ends_define.mpr (emits_push hs rfl (goes_straight (fits_true h)) rfl rfl rfl)
  perform h _ _ _ hs :=
    ends_perform.mpr (emits_push hs rfl (goes_straight (fits_true h)) rfl rfl rfl)
  raise h := h.elim
  return_ h := h.elim

instance : pieces.calculus.Throwing := ⟨rfl⟩

/-! ## Jumps and branches -/

theorem exists_entry (h : f.isEmpty = false) : ∃ e, f.entry = some e := by
  obtain ⟨_ | e, _⟩ := f
  · cases h
  · exact ⟨e, rfl⟩

theorem through_capped {o : Oracle} {w : Finished} {n : Nat} {T : Tale} {P : Nat → Prop}
    (h : Capped c L f (.goto j) g d) (hw : d.Extends w.code) (hk : w.events c.size = [])
    (hj : Tells o w (n - 1) T j) (hi : w.code.Through g P i) :
    w.code.Through f (Tells o w n T) i := by
  refine (h.through hw hi).mono ?_
  rintro _ rfl
  have hafter := after_goto (hw.op_eq h.op rfl)
  refine tells_silent hk (by simp [hafter]) fun l hl => ?_
  rw [hafter] at hl
  exact List.mem_singleton.mp hl ▸ hj

/-- A jump was put behind the fragment. -/
theorem ends_gotoJoin (h : Held s.code (f :: L)) : Ends env (chain f [gotoJoin j origin]) s
    fun g t => Capped s.code L f (.goto j) g t.code ∧ t = { s with code := t.code } := by
  have : Ends env (do let g ← perform (.goto j) origin; append f g.closed) s _ := ends_cap h rfl
  simpa only [chain, gotoJoin, bind_assoc, pure_bind, bind_pure] using this

/-- A branch behind code from `lo` on, with nothing behind its sides. -/
structure Forks (lo : Nat) (c : Code) (b : Branching) : Prop where
  entry : ∃ e, b.code = ⟨some e, none⟩ ∧ lo ≤ e ∧ e < b.yes
  lt : b.yes < b.no ∧ b.no < c.size
  goes : (c.op b.yes).isTerminator = false ∧ (c.op b.no).isTerminator = false
  fork : ∀ {w}, c.Extends w.code →
    (∀ x, lo ≤ x → x < c.size → b.code.entry ≠ some x → x ≠ b.yes → x ≠ b.no → w.events x = []) →
    ∃ r, w.events r = [] ∧ w.code.after r = [b.yes, b.no] ∧ ∀ {o n T e}, b.code.entry = some e →
      Tells o w n T r → Tells o w n (fun met => T (met ++ w.events e)) e

/-- From `s` on, a branch was made. -/
structure Branched (s : State) (L : List Fragment) (b : Branching) (t : State) : Prop where
  quiet : Quiet s t
  held : Held t.code (.single b.yes :: .single b.no :: b.code :: L)
  forks : Forks s.code.size t.code b

theorem Forks.mono {b : Branching} (h : Forks lo c b) (hd : c.Extends d) : Forks lo d b where
  entry := h.entry
  lt := h.lt.imp_right fun hlt => hlt.trans_le hd.size
  goes := by
    rw [isTerminator_eq hd (h.lt.1.trans h.lt.2), isTerminator_eq hd h.lt.2]
    exact h.goes
  fork hw hk := h.fork (hd.trans hw) fun x hx hlt => hk x hx (hlt.trans_le hd.size)

theorem branched_branchOn (make : Nat → Constant.Value) (negated : Bool) (h : Held s.code L) :
    Ends env (branchOn (newConstant make) negated) s (Branched s L) := by
  refine ((pieces.made env s L h).and ((fills_newConstant make).ends env s)).bind ?_
  rintro f s1 ⟨hf, hfill⟩
  obtain ⟨e, he⟩ := exists_entry hfill
  unfold branchIfSame
  simp only [bind_assoc, pure_bind]
  refine (Idle.ends env s1).bind ?_
  rintro right s2 ⟨same2, hs2⟩
  refine (Idle.ends env s2).bind ?_
  rintro left s3 ⟨same3, hs3⟩
  have hq3 : Quiet s1 s3 := quiet_of_same (same2.trans same3) (hs3.trans hs2)
  have hheld3 : Held s3.code (f :: L) := by
    rw [same3.code, same2.code]
    exact hf.held
  refine (starts_makeTarget hheld3).bind ?_
  rintro yes s4 ⟨hyes, rfl, hgoes⟩
  refine (starts_makeTarget hyes.held).bind ?_
  rintro no s5 ⟨hno, rfl, hgoes'⟩
  have hheld5 : Held s5.code (f :: .single s4.code.size :: .single s3.code.size :: L) :=
    hno.held.perm (by grind)
  have hcap : Ends env (do
      let g ← perform (.branch (comparison negated) left right s3.code.size s4.code.size)
      append f g.closed) s5 _ := ends_cap hheld5 rfl
  rw [← bind_assoc]
  refine hcap.bind ?_
  rintro g t ⟨hg, ht⟩
  obtain ⟨e', rfl, he'⟩ := hg.closed
  obtain rfl : e = e' := Option.some.inj (he.symm.trans (he'.resolve_right (by simp [he])))
  have hq5 : Quiet s1 s5 := hq3.trans (hyes.quiet.trans hno.quiet)
  have hyes' := (hyes.silent.entry _ rfl).2
  have hno' := (hno.silent.entry _ rfl).2
  have hfe := hf.silent.entry e he
  have h01 := hf.quiet.size
  have h13 := hq3.size
  have h34 := hyes.quiet.size
  have h5 := hg.lt
  refine ends_pure.mpr ⟨hf.quiet.trans (hq5.trans ⟨hg.grows, ht ▸ rfl, ht ▸ rfl⟩),
    hg.held.perm (by grind), ⟨e, rfl, hfe.1, ?_⟩, ⟨?_, ?_⟩, ⟨?_, ?_⟩, fun {w} hw hk => ?_⟩
  · exact hfe.2.trans_le h13
  · exact hyes'
  · exact hno'.trans h5
  · exact (isTerminator_eq (hno.quiet.code.trans hg.grows) hyes').trans hgoes
  · exact (isTerminator_eq hg.grows hno').trans hgoes'
  · dsimp only at hk ⊢
    refine ⟨s5.code.size, hk _ (by omega) h5 ?_ (by omega) (by omega), ?_, ?_⟩
    · rintro ⟨⟩
      omega
    · rw [Code.after, hw.op_eq hg.op rfl]
      rfl
    · rintro o n T _ ⟨⟩ hT
      have hthrough : w.code.Through f (· = s5.code.size) e := hg.through (P := fun _ => True) hw rfl
      have := hf.silent.tells (hq5.code.trans (hg.grows.trans hw)) (fun x hx hlt hne => ?_)
        (hthrough.mono fun j hj => hj ▸ hT)
      · rwa [he] at this
      · exact hk x hx (by omega) (fun h => hne (he.trans h)) (by omega) (by omega)

theorem Branched.behind {b : Branching} (hf : Emits s L f s') (hb : Branched s' (f :: L) b t) :
    Ends env (append f b.code) t fun g => Branched s L { b with code := g } := by
  obtain ⟨e, hcode, hle, hlt⟩ := hb.forks.entry
  obtain ⟨hyes, hno⟩ := hb.forks.lt
  have hheld : Held t.code (f :: b.code :: .single b.yes :: .single b.no :: L) :=
    hb.held.perm (by grind)
  obtain ⟨hext, hheld', hthrough⟩ := hheld.append
  have hforks := hb.forks.mono hext
  have hsize := hf.quiet.size
  have hentry : ∃ e', (f.append b.code t.code).1 = ⟨some e', none⟩ ∧ s.code.size ≤ e' ∧ e' ≤ e ∧
      (e' = e ∧ f.entry = none ∨ e' < s'.code.size ∧ f.entry = some e') := by
    rw [hcode]
    rcases f with ⟨_ | fe, fx⟩
    · exact ⟨e, rfl, hsize.trans hle, le_rfl, .inl ⟨rfl, rfl⟩⟩
    · have := hf.silent.entry fe rfl
      cases fx <;> exact ⟨fe, rfl, this.1, by omega, .inr ⟨this.2, rfl⟩⟩
  refine ends_append.mpr ⟨hf.quiet.trans (hb.quiet.trans ⟨hext, rfl, rfl⟩), hheld'.perm (by grind), ?_⟩
  obtain ⟨e', hcode', hle', hee, hor⟩ := hentry
  dsimp only
  rw [hcode'] at hthrough ⊢
  refine ⟨⟨e', rfl, hle', hee.trans_lt hlt⟩, hforks.lt, hforks.goes, fun {w} hw hk => ?_⟩
  dsimp only at hk ⊢
  have hne : ∀ x, s'.code.size ≤ x → b.code.entry ≠ some x → some e' ≠ some x := by
    rintro x hx hne ⟨⟩
    rcases hor with ⟨rfl, -⟩ | ⟨hlt', -⟩
    · exact hne (by rw [hcode])
    · omega
  obtain ⟨r, hr, hafter, htells⟩ := hforks.fork hw fun x hx hlt hx' =>
    hk x (hsize.trans hx) hlt (hne x hx hx')
  refine ⟨r, hr, hafter, ?_⟩
  rintro o n T _ ⟨⟩ hT
  have hfork := htells (e := e) (by rw [hcode]) hT
  rcases hor with ⟨rfl, -⟩ | ⟨hlt', hfe⟩
  · exact hfork
  · have hke : w.events e = [] := hk e (hsize.trans hle) (by have := hext.size; omega)
      (by rintro ⟨⟩; omega) (by omega) (by omega)
    have hthrough' : w.code.Through f (Tells o w n T) e' := by
      refine (hthrough (P := fun _ => True) hw rfl).mono fun j hj => ?_
      rw [hcode] at hj
      obtain rfl : j = e := hj
      simpa only [hke, List.append_nil] using hfork
    have := hf.silent.tells (hb.quiet.code.trans (hext.trans hw)) (fun x hx hlt hx' => ?_) hthrough'
    · rwa [hfe] at this
    · have h1 := hb.quiet.size
      have h2 := hext.size
      exact hk x hx (by omega) (fun h => hx' (hfe.trans h)) (by omega) (by omega)

theorem emits_condition {c : LowerM (Fragment × Bool)} (hc : pieces.Decides c) (h : Held s.code L) :
    Ends env c s fun a => Emits s L a.1 := by
  have hm := hc env s L h
  rw [ends_bind] at hm
  exact hm.mono fun a t ht => ends_pure.mp ht

theorem branched_branchOnCondition {c : LowerM (Fragment × Bool)} (hc : pieces.Decides c)
    (h : Held s.code L) : Ends env (branchOnCondition c) s (Branched s L) := by
  refine (emits_condition hc h).bind ?_
  rintro ⟨f, negated⟩ s1 hf
  exact (branched_branchOn _ negated hf.held).bind fun b s2 hb =>
    (hb.behind hf).bind fun g t hg => ends_pure.mpr hg

/-! ## Arms -/

/-- Silent code was put behind the block `i`. -/
structure Arm (lo i : Nat) (s : State) (L : List Fragment) (f : Fragment) (t : State) : Prop where
  quiet : Quiet s t
  held : Held t.code (f :: L)
  silent : Silent lo t.code f
  entry : f.entry = some i

theorem arm_startingAt (h : ∀ m ∈ ms, pieces.Makes m) (hs : Held s.code (.single i :: L))
    (hi : Silent lo s.code (.single i)) (hlo : lo ≤ s.code.size) :
    Ends env (startingAt i ms) s (Arm lo i s L) := by
  refine ((pieces.chain h env lo s L _ hlo hs hi).and entry_chain).mono ?_
  rintro f t ⟨⟨hq, hheld, hf⟩, hentry⟩
  exact ⟨hq, hheld, hf, hentry rfl⟩

theorem arm_operand {c : LowerM (Fragment × Bool)} {rest : Bool → List (LowerM Fragment)}
    (hc : pieces.Decides c) (hrest : ∀ negated, ∀ m ∈ rest negated, pieces.Makes m)
    (hs : Held s.code (.single i :: L)) (hi : Silent lo s.code (.single i))
    (hlo : lo ≤ s.code.size) :
    Ends env (do let a ← c; startingAt i (pure a.1 :: rest a.2)) s (Arm lo i s L) := by
  refine (emits_condition hc hs).bind ?_
  rintro ⟨f, negated⟩ s1 hf
  unfold startingAt chain
  rw [pure_bind]
  refine ((hf.append hlo hi).and ends_append_linked).bind ?_
  rintro g s2 ⟨⟨hq, hheld, hg⟩, hentry, -⟩
  have hge : g.entry = some i := hentry rfl
  have hchain := pieces.chain (hrest negated) env lo s2 L g (hlo.trans hq.size) hheld hg
  refine (hchain.and entry_chain).mono ?_
  rintro h t ⟨⟨hq', hheld', hh⟩, hentry'⟩
  exact ⟨hq.trans hq', hheld', hh, (hentry' (by rw [Fragment.isEmpty, hge]; rfl)).trans hge⟩

/-- The arms of a branch come together. -/
theorem emits_joinArms {s0 : State} {b : Branching} (hq : Quiet s0 s)
    (hb : Forks s0.code.size s.code b) (h : Held s.code (g :: f :: b.code :: L))
    (hf : Silent b.yes s.code f) (hg : Silent b.yes s.code g)
    (hsides : f.entry = some b.yes ∧ g.entry = some b.no ∨ f.entry = some b.no ∧ g.entry = some b.yes) :
    Ends env (joinArms b.code f g) s (Emits s0 L) := by
  unfold joinArms
  refine (starts_makeJoin h).bind ?_
  rintro join s1 ⟨hjoin, rfl, -⟩
  have hheld1 : Held s1.code (f :: g :: .single s.code.size :: b.code :: L) := hjoin.held.perm (by grind)
  refine (ends_gotoJoin hheld1).bind ?_
  rintro f' s2 ⟨hf', hs2⟩
  refine (ends_gotoJoin hf'.held.forget).bind ?_
  rintro g' s3 ⟨hg', hs3⟩
  have hgrows := hf'.grows.trans hg'.grows
  have hq3 : Quiet s0 s3 :=
    hq.trans (hjoin.quiet.trans ⟨hgrows, by rw [hs3, hs2], by rw [hs3, hs2]⟩)
  have hheld3 : Held s3.code (b.code.exitingAt s.code.size :: L) := hg'.held.forget.swap.exitingAt
  obtain ⟨e, hcode, hle, hlt⟩ := hb.entry
  obtain ⟨hyes, hno⟩ := hb.lt
  have hlt1 := (hjoin.silent.entry _ rfl).2
  have hlt2 := hf'.lt
  have hlt3 := hg'.lt
  have hlo := hq.size
  have hjoined : Silent s0.code.size s3.code (b.code.exitingAt s.code.size) := by
    constructor
    · intro e' he'
      rw [hcode] at he'
      obtain rfl := Option.some.inj he'
      exact ⟨hle, by omega⟩
    intro o w n T i hw hk hi
    have hsilent : ∀ x, b.yes ≤ x → x < s3.code.size → w.events x = [] := fun x hx hlt' =>
      hk x (by omega) hlt' (by rw [hcode]; rintro ⟨⟩; omega)
    -- What is told behind the join is told at the ends of both arms, and so at both sides.
    have hi' : i = e ∧ ∃ j, w.code.Linked s.code.size j ∧ Tells o w n T j := by
      rwa [hcode] at hi
    have hjoin' : Tells o w (n - 1) T s.code.size :=
      (hjoin.silent.tells_self (hgrows.trans hw) (fun x hx hlt' => hsilent x (by omega) (by omega))
        ⟨rfl, hi'.2⟩).mono (Nat.sub_le n 1)
    have harm {a a' : Fragment} {d d' : Code} {i : Nat} {L' : List Fragment} (ha : Silent b.yes s.code a)
        (hcap : Capped d L' a (.goto s.code.size) a' d') (hd' : d'.Extends w.code)
        (hsize : s.code.size ≤ d.size) (hd : d'.size ≤ s3.code.size) (hi : a.entry = some i) : Tells o w n T i := by
      obtain ⟨e', rfl, he'⟩ := hcap.closed
      obtain rfl : i = e' := Option.some.inj (hi.symm.trans (he'.resolve_right (by simp [hi])))
      have hgrows' := (hjoin.quiet.code.trans hgrows).trans hw
      refine ha.tells_self hgrows' (fun x hx hlt' => hsilent x hx (by omega)) ?_
      exact through_capped (P := fun _ => True) hcap hd'
        (hsilent _ (by omega) (hcap.lt.trans_le hd)) hjoin' rfl
    have hfork : ∀ j ∈ [b.yes, b.no], Tells o w n T j := by
      have hf'' := fun i => harm (i := i) hf hf' (hg'.grows.trans hw) hlt1.le hg'.grows.size
      have hg'' := fun i => harm (i := i) hg hg' hw (by omega) le_rfl
      rcases hsides with ⟨h, h'⟩ | ⟨h, h'⟩
      · simp [hf'' _ h, hg'' _ h']
      · simp [hf'' _ h, hg'' _ h']
    obtain ⟨r, hr, hafter, htells⟩ := hb.fork ((hjoin.quiet.code.trans hgrows).trans hw)
      fun x hx hlt' hne _ _ => hk x hx (by omega) hne
    rw [show (b.code.exitingAt s.code.size).entry = some e by rw [hcode]; rfl, hi'.1]
    refine htells (by rw [hcode]) (tells_silent hr (by simp [hafter]) fun j hj => ?_)
    exact (hfork j (hafter ▸ hj)).mono (Nat.sub_le n 1)
  have hload : Continues fun f => expressionTemp >>= fun temp => chain f [loadLocal temp] :=
    .idle fun temp => pieces.chain (by simp)
  refine (hload env _ s3 L _ hq3.size hheld3 hjoined).mono ?_
  rintro h t ⟨hq4, hheld4, hh⟩
  exact ⟨hq3.trans hq4, hheld4, hh⟩

theorem emits_arms {s0 : State} {b : Branching} {p : LowerM Fragment} (hb : Branched s0 L b s)
    (hsides : i = b.yes ∧ j = b.no ∨ i = b.no ∧ j = b.yes)
    (hm : ∀ s L, Held s.code (.single i :: L) → Silent b.yes s.code (.single i) →
      b.yes ≤ s.code.size → Ends env m s (Arm b.yes i s L))
    (hp : ∀ s L, Held s.code (.single j :: L) → Silent b.yes s.code (.single j) →
      b.yes ≤ s.code.size → Ends env p s (Arm b.yes j s L)) :
    Ends env (do let f ← m; let g ← p; joinArms b.code f g) s (Emits s0 L) := by
  obtain ⟨hq, hheld, hforks⟩ := hb
  have hyes : Silent b.yes s.code (.single b.yes) :=
    silent_single le_rfl (hforks.lt.1.trans hforks.lt.2) hforks.goes.1
  have hno : Silent b.yes s.code (.single b.no) :=
    silent_single hforks.lt.1.le hforks.lt.2 hforks.goes.2
  obtain ⟨hi, hj, hs⟩ : Silent b.yes s.code (.single i) ∧ Silent b.yes s.code (.single j) ∧
      Held s.code (.single i :: .single j :: b.code :: L) := by
    rcases hsides with ⟨rfl, rfl⟩ | ⟨rfl, rfl⟩
    · exact ⟨hyes, hno, hheld⟩
    · exact ⟨hno, hyes, hheld.swap⟩
  have hlo : b.yes ≤ s.code.size := (hforks.lt.1.trans hforks.lt.2).le
  refine (hm s _ hs hi hlo).bind fun f s1 hf => ?_
  refine (hp s1 _ hf.held.swap (hj.mono hf.quiet.code) (hlo.trans hf.quiet.size)).bind fun g s2 hg => ?_
  refine emits_joinArms (hq.trans (hf.quiet.trans hg.quiet))
    (hforks.mono (hf.quiet.code.trans hg.quiet.code)) hg.held (hf.silent.mono hg.quiet.code) hg.silent ?_
  rw [hf.entry, hg.entry]
  simpa using hsides

theorem makes_conditional {c : LowerM (Fragment × Bool)} (hc : pieces.Decides c)
    (hm : pieces.Makes m) (hm' : pieces.Makes m') : Makes (conditional c m m') :=
  .idle fun temp _ _ _ h => (branched_branchOnCondition hc h).bind fun b _ hb =>
    emits_arms hb (.inl ⟨rfl, rfl⟩) (fun _ _ => arm_startingAt (by simp [hm]))
      fun _ _ => arm_startingAt (by simp [hm'])

theorem makes_logical {c c' : LowerM (Fragment × Bool)} (isOr : Bool) (hc : pieces.Decides c)
    (hc' : pieces.Decides c') : Makes (logical isOr c c') := by
  refine .idle fun temp env s L h => (branched_branchOnCondition hc h).bind fun b s1 hb => ?_
  let rest (negated : Bool) : List (LowerM Fragment) :=
    [boolConstant true, strictCompare negated, storeLocal temp, drop]
  have hmain : ∀ i j, (i = b.yes ∧ j = b.no ∨ i = b.no ∧ j = b.yes) → Ends env (do
      let a ← c'
      let right ← startingAt i (pure a.1 :: rest a.2)
      let short ← startingAt j [boolConstant isOr, storeLocal temp, drop]
      joinArms b.code right short) s1 (Emits s L) := by
    intro i j hsides
    have : Ends env (do
        let right ← (do let a ← c'; startingAt i (pure a.1 :: rest a.2))
        let short ← startingAt j [boolConstant isOr, storeLocal temp, drop]
        joinArms b.code right short) s1 _ :=
      emits_arms hb hsides (fun _ _ => arm_operand hc' (by simp [rest]))
        fun _ _ => arm_startingAt (by simp)
    simpa only [bind_assoc] using this
  cases isOr
  · exact hmain b.yes b.no (.inl ⟨rfl, rfl⟩)
  · exact hmain b.no b.yes (.inr ⟨rfl, rfl⟩)

theorem makes_ifNull (hm : pieces.Makes m) (hm' : pieces.Makes m') : Makes (ifNull m m') := by
  refine .idle fun temp env s L h => ?_
  have hleft : pieces.Makes (inOrder [m, storeLocal temp]) := pieces.inOrder (by simp [hm])
  refine (hleft env s L h).bind fun f s1 hf => ?_
  refine (branched_branchOn _ false hf.held).bind fun b s2 hb => ?_
  refine (hb.behind hf).bind fun g s3 hb => ?_
  have hright : ∀ p ∈ [m', storeLocal temp, drop], pieces.Makes p := by simp [hm']
  have harms (env : Env) := emits_arms (p := pure (.single b.no)) hb (.inl ⟨rfl, rfl⟩)
    (fun s L => arm_startingAt (s := s) (L := L) hright)
    fun s L hs hj _ => (ends_pure.mpr ⟨.refl s, hs, hj, rfl⟩ : Ends env _ _ _)
  simpa only [pure_bind] using harms env

/-- Expressions that throw nothing are silent. -/
def discipline : Discipline where
  toPieces := pieces
  throwing := rfl
  rethrow h := h.elim
  conditional := makes_conditional
  logical isOr _ _ := makes_logical isOr
  ifNull := makes_ifNull

theorem allows_of_not_throws {b : Bool} (h : b = false) : discipline.Allows b := by
  intro hb
  rw [hb] at h
  cases h

end Rules

end Flowgraph.Lowering.Trace
