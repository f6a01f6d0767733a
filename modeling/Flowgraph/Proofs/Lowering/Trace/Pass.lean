import Flowgraph.Proofs.Lowering.Assembly.Ready
import Flowgraph.Proofs.Lowering.Trace.Silent

/-! # Steps that make code for statements

Code was put behind a fragment for an execution if what is told behind the code lets the
whole be told behind the fragment. Steps are put together the way executions are.
-/

namespace Flowgraph.Lowering.Trace

open Flowgraph.Graph (Code Event Fragment)
open Flowgraph.Tree (Expr)

/-- Where breaks to a label lead. -/
def targetOf (bs : List Breakable) (label : Nat) : Option Nat :=
  (bs.find? (·.label = label)).bind (·.destination)

/-- The joins that breaks lead to. Nothing is put behind them before the ends of the statements
that carry the labels. -/
def joins (bs : List Breakable) : List Nat := bs.filterMap (·.destination)

/-- The fragments are in hand, together with the joins of the labels. Nothing is noted at the
joins, and nothing where there is no code yet. -/
structure Inv (s : State) (L : List Fragment) : Prop where
  held : Held s.code (L ++ (joins s.breakables).map .single)
  notes : ∀ i, s.code.size ≤ i → s.sources.eventsAt i = []
  joined : ∀ j ∈ joins s.breakables,
    (s.code.op j).isTerminator = false ∧ s.sources.eventsAt j = []

/-- The label got a destination at most. -/
def Reaches (b b' : Breakable) : Prop :=
  b'.label = b.label ∧ ∀ j, b.destination = some j → b'.destination = some j

/-- Code was added, with notes in it. Labels may have been reached. -/
structure Step (s t : State) : Prop where
  code : s.code.Extends t.code
  events : ∀ i < s.code.size, t.sources.eventsAt i = s.sources.eventsAt i
  breakables : List.Forall₂ Reaches s.breakables t.breakables

/-- The code was finished. Breaks lead to the places of `W`. -/
structure Later (s : State) (w : Finished) (W : Nat → Option Nat) : Prop where
  code : s.code.Extends w.code
  events : ∀ i < s.code.size, w.events i = s.sources.eventsAt i
  targets : ∀ label j, targetOf s.breakables label = some j → W label = some j

/-- What executions go on with is told where breaks lead to. There is nothing behind a return. -/
structure Leaves (o : Oracle) (w : Finished) (W : Nat → Option Nat) (n : Nat)
    (κ : Ending → Tale) : Prop where
  bound : n ≤ o.turns
  broke : ∀ label j, W label = some j → Tells o w n (κ (.broke label)) j
  returned : κ .returned = id

/-- Between the end of `f` and the end of `g`, the execution is told. -/
def Passes (o : Oracle) (s : State) (f g : Fragment) (D : Run Ending) : Prop :=
  ∀ ⦃w W n κ i⦄, Later s w W → Leaves o w W n κ →
    w.code.Through g (Tells o w n (κ .normal)) i → w.code.Through f (Tells o w n (D.goOn κ)) i

/-- From `s` on, code was put behind `f`. -/
structure Added (o : Oracle) (s : State) (L : List Fragment) (f : Fragment) (D : Run Ending)
    (g : Fragment) (t : State) : Prop where
  step : Step s t
  inv : Inv t (g :: L)
  passes : Passes o t f g D

/-- The step makes code for the execution. -/
def Lays (o : Oracle) (m : LowerM Fragment) (D : Run Ending) : Prop :=
  ∀ env s L, Inv s L → Ends env m s (Added o s L .empty D)

/-- The step puts code for the execution behind a fragment. -/
def Puts (o : Oracle) (k : Fragment → LowerM Fragment) (D : Run Ending) : Prop :=
  ∀ env s L f, Inv s (f :: L) → Ends env (k f) s (Added o s L f D)

section States

variable {o : Oracle} {s s' t : State} {w : Finished} {W : Nat → Option Nat} {n m i j : Nat}
  {κ : Ending → Tale} {T : Tale} {bs bs' : List Breakable} {L L' : List Fragment}

theorem targetOf_mono {label : Nat} (h : List.Forall₂ Reaches bs bs')
    (hj : targetOf bs label = some j) : targetOf bs' label = some j := by
  induction h with
  | nil => cases hj
  | cons hr _ ih =>
    unfold targetOf at hj ih ⊢
    rw [List.find?_cons] at hj ⊢
    rw [hr.1]
    split
    · rename_i heq
      rw [heq] at hj
      exact hr.2 j hj
    · rename_i heq
      rw [heq] at hj
      exact ih hj

theorem forall₂_reaches_refl (bs : List Breakable) : List.Forall₂ Reaches bs bs :=
  List.forall₂_same.mpr fun _ _ => ⟨rfl, fun _ => id⟩

theorem Step.refl (s : State) : Step s s := ⟨.refl _, fun _ _ => rfl, forall₂_reaches_refl _⟩

theorem Step.size (h : Step s t) : s.code.size ≤ t.code.size := h.code.size

theorem Step.trans (h : Step s s') (h' : Step s' t) : Step s t where
  code := h.code.trans h'.code
  events i hi := (h'.events i (hi.trans_le h.size)).trans (h.events i hi)
  breakables := Assembly.forall₂_trans
    (fun _ _ _ h h' => ⟨h'.1.trans h.1, fun j hj => h'.2 j (h.2 j hj)⟩) h.breakables h'.breakables

theorem Quiet.step (h : Quiet s t) : Step s t :=
  ⟨h.code, fun _ _ => by rw [h.sources], h.breakables ▸ forall₂_reaches_refl _⟩

theorem Step.later (h : Step s t) (hw : Later t w W) : Later s w W where
  code := h.code.trans hw.code
  events i hi := (hw.events i (hi.trans_le h.size)).trans (h.events i hi)
  targets label j hj := hw.targets label j (targetOf_mono h.breakables hj)

theorem Leaves.mono (h : Leaves o w W n κ) (hm : m ≤ n) : Leaves o w W m κ :=
  ⟨hm.trans h.bound, fun label j hj => (h.broke label j hj).mono hm, h.returned⟩

theorem Leaves.onward (h : Leaves o w W n κ) (T : Tale) : Leaves o w W n (onward T κ) :=
  ⟨h.bound, h.broke, h.returned⟩

theorem Inv.join_lt (h : Inv s L) (hj : j ∈ joins s.breakables) : j < s.code.size :=
  (h.held.hands.entry _ (List.mem_append_right L (List.mem_map_of_mem hj)) j rfl).1

theorem Inv.perm (h : Inv s L) (hp : L.Perm L') : Inv s L' :=
  ⟨h.held.perm (hp.append_right _), h.notes, h.joined⟩

theorem Inv.quiet (h : Inv s L) (hq : Quiet s t)
    (hheld : Held t.code (L' ++ (joins s.breakables).map .single)) : Inv t L' where
  held := hq.breakables ▸ hheld
  notes i hi := by
    rw [hq.sources]
    exact h.notes i (hq.size.trans hi)
  joined j hj := by
    rw [hq.breakables] at hj
    rw [hq.sources, isTerminator_eq hq.code (h.join_lt hj)]
    exact h.joined j hj

end States

section Rules

variable {α : Type} {o : Oracle} {env : Env} {s s' t : State} {f g h : Fragment}
  {L : List Fragment} {m : LowerM Fragment} {ms ms' : List (LowerM Fragment)}
  {k k' : Fragment → LowerM Fragment} {D E : Run Ending} {place : Position} {lo : Nat}

theorem pure_andThen (E : Run Ending) : (pure .normal : Run Ending).andThen E = E := rfl

theorem andThen_pure (D : Run Ending) : D.andThen (pure .normal) = D := by
  unfold Run.andThen
  conv_rhs => rw [← bind_pure D]
  congr 1
  funext x
  cases x <;> rfl

theorem meet_nil : Run.meet [] .normal = pure .normal :=
  funext fun met => congrArg (some Ending.normal, ·) (List.append_nil met)

theorem meet_andThen (l l' : List Event) (e : Ending) :
    (Run.meet l .normal).andThen (.meet l' e) = .meet (l ++ l') e :=
  funext fun met => congrArg (some e, ·) (List.append_assoc met l l')

theorem Passes.refl (o : Oracle) (s : State) (f : Fragment) : Passes o s f f (pure .normal) :=
  fun _ _ _ _ _ _ _ hi => hi

theorem Passes.mono (hf : Passes o s f g D) (hs : Step s t) : Passes o t f g D :=
  fun _ _ _ _ _ hw => hf (hs.later hw)

theorem Passes.trans (hf : Passes o s f g D) (hg : Passes o s g h E) :
    Passes o s f h (D.andThen E) := fun _ _ _ _ _ hw hκ hi => by
  rw [goOn_andThen]
  exact hf hw (hκ.onward _) (hg hw hκ hi)

/-- Nothing is told behind the end of closed code. -/
theorem passes_closed (hf : f.isOpen = false) : Passes o s f f E :=
  fun _ _ _ _ _ _ _ hi => hi.of_closed hf

theorem Added.trans (hf : Added o s L f D g s') (hg : Added o s' L g E h t) :
    Added o s L f (D.andThen E) h t :=
  ⟨hf.step.trans hg.step, hg.inv, (hf.passes.mono hg.step).trans hg.passes⟩

theorem lays_empty : Lays o (pure .empty) (pure .normal) := fun _ s _ hs =>
  ends_pure.mpr ⟨.refl s, ⟨hs.held.empty, hs.notes, hs.joined⟩, .refl o s _⟩

theorem puts_pure : Puts o pure (pure .normal) := fun _ s _ f hs =>
  ends_pure.mpr ⟨.refl s, hs, .refl o s f⟩

theorem Lays.bind (hm : Lays o m D) (hk : Puts o k E) : Lays o (m >>= k) (D.andThen E) :=
  fun env s L hs => (hm env s L hs).bind fun f s1 hf =>
    (hk env s1 L f hf.inv).mono fun _ _ hg => hf.trans hg

theorem Puts.trans (hk : Puts o k D) (hk' : Puts o k' E) :
    Puts o (fun f => k f >>= k') (D.andThen E) :=
  fun env s L f hs => (hk env s L f hs).bind fun g s1 hg =>
    (hk' env s1 L g hg.inv).mono fun _ _ hh => hg.trans hh

/-- From `s` on, one fragment was put behind another. -/
structure Appended (s : State) (L : List Fragment) (f g h : Fragment) (t : State) : Prop where
  step : Step s t
  inv : Inv t (h :: L)
  entry : f.isEmpty = false → h.entry = f.entry
  closed : ∀ e, g = ⟨some e, none⟩ → ∃ e', h = ⟨some e', none⟩
  through : ∀ {w W P i}, Later t w W → w.code.Through h P i →
    w.code.Through f (w.code.Through g P) i

theorem Inv.append (hs : Inv s (f :: g :: L)) : Ends env (append f g) s (Appended s L f g) := by
  obtain ⟨hext, hheld, hthrough⟩ := hs.held.append
  have hq : Quiet s { s with code := (f.append g s.code).2 } := ⟨hext, rfl, rfl⟩
  refine ends_append.mpr ⟨hq.step, hs.quiet hq hheld, append_entry, ?_, fun hw => hthrough hw.code⟩
  rintro e rfl
  rcases f with ⟨_ | e', _ | x⟩
  exacts [⟨e, rfl⟩, ⟨e, rfl⟩, ⟨e', rfl⟩, ⟨e', rfl⟩]

/-- Code that was made on its own was put behind a fragment. -/
theorem Added.append (hg : Added o s (f :: L) .empty D g t) :
    Ends env (append f g) t (Added o s L f D) := by
  refine (hg.inv.perm (.swap f g L)).append.mono fun h t' ht => ?_
  refine ⟨hg.step.trans ht.step, ht.inv, fun _ _ _ _ _ hw hκ hi => ?_⟩
  exact (ht.through hw hi).mono fun j hj => hg.passes (ht.step.later hw) hκ hj

theorem Lays.append (hm : Lays o m D) : Puts o (fun f => m >>= append f) D :=
  fun env s L f hs => (hm env s (f :: L) hs).bind fun _ _ hg => hg.append

theorem Added.quiet (hq : Quiet s s') (hf : Added o s' L f D g t) : Added o s L f D g t :=
  ⟨hq.step.trans hf.step, hf.inv, hf.passes⟩

theorem Inv.idle (hs : Inv s L) (same : Same s t) (h : t.sources = s.sources) : Inv t L :=
  hs.quiet (quiet_of_same same h) (same.code ▸ hs.held)

theorem Lays.idle {r : LowerM α} {k : α → LowerM Fragment} [Idle r] (hk : ∀ a, Lays o (k a) D) :
    Lays o (r >>= k) D := by
  intro env s L hs
  refine (Idle.ends env s).bind ?_
  rintro a s1 ⟨same, h⟩
  exact (hk a env s1 L (hs.idle same h)).mono fun _ _ hf => hf.quiet (quiet_of_same same h)

theorem Puts.idle {r : LowerM α} {k : α → Fragment → LowerM Fragment} [Idle r]
    (hk : ∀ a, Puts o (k a) D) : Puts o (fun f => r >>= fun a => k a f) D := by
  intro env s L f hs
  refine (Idle.ends env s).bind ?_
  rintro a s1 ⟨same, h⟩
  exact (hk a env s1 L f (hs.idle same h)).mono fun _ _ hf => hf.quiet (quiet_of_same same h)

theorem Puts.ite {c : Prop} [Decidable c] (h : Puts o k D) (h' : Puts o k' D) :
    Puts o (fun f => if c then k f else k' f) D := by
  by_cases hc : c
  · simpa only [hc, if_true] using h
  · simpa only [hc, if_false] using h'

theorem Lays.keep (hm : Lays o m D) (hk : Puts o k (pure .normal)) : Lays o (m >>= k) D :=
  andThen_pure D ▸ hm.bind hk

theorem Puts.keep (hk : Puts o k D) (hk' : Puts o k' (pure .normal)) :
    Puts o (fun f => k f >>= k') D := andThen_pure D ▸ hk.trans hk'

theorem puts_idle {q : LowerM PUnit} [Idle q] : Puts o (fun f => do q; return f) (pure .normal) :=
  .idle fun _ => puts_pure

theorem Lays.between {p q : LowerM PUnit} [Idle p] [Idle q] (hm : Lays o m D) :
    Lays o (do p; let f ← m; q; return f) D := .idle fun _ => hm.keep puts_idle

theorem Puts.inLoop (hk : Puts o k D) : Puts o (fun f => inLoop (k f)) D :=
  .idle fun _ => hk.keep puts_idle

theorem Lays.balanced {kind : String} (hm : Lays o m D) : Lays o (balanced place kind m) D := by
  refine .idle fun _ => .between (.idle fun before => hm.keep (.idle fun after => ?_))
  have hframe : Puts o (fun f => (do
      if after.frame ≠ before.frame then
        malformed place (kind ++ " changed the frame level from " ++ toString before.frame ++
          " to " ++ toString after.frame)
      return f : LowerM Fragment)) (pure .normal) :=
    .ite (.idle fun _ => puts_pure) puts_pure
  exact .ite (.idle fun _ => hframe) hframe

theorem Puts.ifOpen (hk : Puts o k D) : Puts o (fun f => if f.isOpen then k f else pure f) D := by
  intro env s L f hs
  dsimp only
  split
  · exact hk env s L f hs
  · rename_i hf
    exact ends_pure.mpr ⟨.refl s, hs, passes_closed (Bool.eq_false_iff.mpr hf)⟩

/-! ## Chains -/

theorem Puts.cons (hm : Lays o m D) (hms : Puts o (fun f => chain f ms) E) :
    Puts o (fun f => chain f (m :: ms)) (D.andThen E) := by
  simpa only [bind_assoc, chain] using hm.append.trans hms

theorem Puts.single (hm : Lays o m D) : Puts o (fun f => chain f [m]) D :=
  andThen_pure D ▸ .cons hm puts_pure

theorem Puts.chain (h : Puts o (fun f => chain f ms) D) (h' : Puts o (fun f => chain f ms') E) :
    Puts o (fun f => Lowering.chain f (ms ++ ms')) (D.andThen E) := by
  simpa only [chain_append] using h.trans h'

theorem Lays.inOrder (h : Puts o (fun f => chain f ms) D) : Lays o (inOrder ms) D := by
  have := lays_empty.bind h
  rwa [pure_bind, pure_andThen] at this

/-! ## Silent code -/

theorem Silent.passes (hf : Silent lo s.code f) (hk : ∀ x, lo ≤ x → x < s.code.size →
    f.entry ≠ some x → s.sources.eventsAt x = []) :
    Passes o s .empty f (.meet (f.entry.elim [] s.sources.eventsAt) .normal) := by
  intro w W n κ i hw _ hi
  have hevents : f.entry.elim [] w.events = f.entry.elim [] s.sources.eventsAt := by
    cases he : f.entry with
    | none => rfl
    | some e => exact hw.events e (hf.entry e he).2
  change Tells o w n (fun met => κ .normal (met ++ f.entry.elim [] s.sources.eventsAt)) i
  rw [← hevents]
  exact hf.tells hw.code (fun x hx hlt hne => (hw.events x hlt).trans (hk x hx hlt hne)) hi

/-- What is noted at a block is met there. -/
theorem passes_single {i : Nat} (hlt : i < s.code.size) (hgoes : (s.code.op i).isTerminator = false) :
    Passes o s .empty (.single i) (.meet (s.sources.eventsAt i) .normal) := by
  rintro w W n κ _ hw - ⟨rfl, j, hj, hT⟩
  rw [← isTerminator_eq hw.code hlt] at hgoes
  have := tells_next (after_linked hgoes hj) (hT.mono (Nat.sub_le n 1))
  rwa [hw.events _ hlt] at this

theorem passes_join {i : Nat} (hlt : i < s.code.size) (hgoes : (s.code.op i).isTerminator = false)
    (hk : s.sources.eventsAt i = []) : Passes o s .empty (.single i) (pure .normal) := by
  have : Passes o s .empty (.single i) _ := passes_single hlt hgoes
  rwa [hk, meet_nil] at this

theorem Inv.added_emits (hs : Inv s L) (hf : Emits s (L ++ (joins s.breakables).map .single) f t) :
    Added o s L .empty (pure .normal) f t := by
  have hk : ∀ x, s.code.size ≤ x → t.sources.eventsAt x = [] := fun x hx => by
    rw [hf.quiet.sources]
    exact hs.notes x hx
  refine ⟨hf.quiet.step, hs.quiet hf.quiet hf.held, fun _ _ _ _ _ hw _ hi => ?_⟩
  exact hf.silent.tells_self hw.code (fun x hx hlt => (hw.events x hlt).trans (hk x hx)) hi

theorem Makes.lays (hm : Makes m) : Lays o m (pure .normal) := fun env s _ hs =>
  (hm env s _ hs.held).mono fun _ _ hf => hs.added_emits hf

theorem puts_silent (h : ∀ m ∈ ms, pieces.Makes m) : Puts o (fun f => chain f ms) (pure .normal) := by
  induction ms with
  | nil => exact puts_pure
  | cons m ms ih =>
    exact .cons (Makes.lays (h m List.mem_cons_self)) (ih fun m hm => h m (List.mem_cons_of_mem _ hm))

/-! ## Notes -/

/-- An event was noted. -/
structure Noted (i : Nat) (e : Event) (s t : State) : Prop where
  code : t.code = s.code
  breakables : t.breakables = s.breakables
  events : ∀ x, t.sources.eventsAt x =
    if x = i then e :: s.sources.eventsAt x else s.sources.eventsAt x

theorem noted_noteEvent {i : Nat} {e : Event} :
    Ends env (noteEvent (some i) e) s fun _ t => Noted i e s t := by
  unfold noteEvent note
  refine ends_modify.mpr ⟨rfl, rfl, fun x => ?_⟩
  unfold Graph.Sources.eventsAt
  by_cases hx : x = i
  · simp [hx]
  · simp [hx, Ne.symm hx]

theorem Noted.step {i : Nat} {e : Event} (hn : Noted i e s' t) (hs : Step s s')
    (hi : s.code.size ≤ i) : Step s t where
  code := hn.code ▸ hs.code
  events x hx := by
    rw [hn.events, if_neg (by omega)]
    exact hs.events x hx
  breakables := hn.breakables ▸ hs.breakables

theorem Noted.inv {i : Nat} {e : Event} (hn : Noted i e s t) (hs : Inv s L) (hi : i < s.code.size)
    (hne : i ∉ joins s.breakables) : Inv t L where
  held := by
    rw [hn.code, hn.breakables]
    exact hs.held
  notes x hx := by
    rw [hn.code] at hx
    rw [hn.events, if_neg (by omega)]
    exact hs.notes x hx
  joined j hj := by
    rw [hn.breakables] at hj
    rw [hn.events, if_neg (ne_of_mem_of_not_mem hj hne), hn.code]
    exact hs.joined j hj

/-- The joins of labels come before code that is made later. -/
theorem Inv.not_mem_joins {i : Nat} (hs : Inv s L) (ht : t.breakables = s.breakables)
    (hi : s.code.size ≤ i) : i ∉ joins t.breakables := fun hj =>
  absurd (hs.join_lt (ht ▸ hj)) (Nat.not_lt.mpr hi)

theorem lays_marked {e : Event} (hm : pieces.Makes m) (hfill : Fills m) :
    Lays o (marked e m) (.meet [e] .normal) := by
  intro env s L hs
  refine ((hm env s _ hs.held).and (hfill.ends env s)).bind ?_
  rintro f s1 ⟨hf, hfilled⟩
  obtain ⟨i, hfi⟩ := exists_entry hfilled
  obtain ⟨hge, hlt⟩ := hf.silent.entry i hfi
  rw [hfi]
  refine noted_noteEvent.bind fun _ t hn => ends_pure.mpr ?_
  have hnotes : ∀ x, s.code.size ≤ x → t.sources.eventsAt x = if x = i then [e] else [] := fun x hx => by
    rw [hn.events, hf.quiet.sources, hs.notes x hx]
  refine ⟨hn.step hf.quiet.step hge, hn.inv (hs.quiet hf.quiet hf.held) hlt
    (hs.not_mem_joins hf.quiet.breakables hge), ?_⟩
  have hsilent : Silent s.code.size t.code f := hn.code ▸ hf.silent
  have hpasses : Passes o t .empty f _ := hsilent.passes fun x hx _ hne => by
    rw [hnotes x hx, if_neg]
    rintro rfl
    exact hne hfi
  rwa [hfi, Option.elim_some, hnotes i hge, if_pos rfl] at hpasses

theorem puts_marked {e : Event} (hm : pieces.Makes m) (hfill : Fills m) :
    Puts o (fun f => chain f [marked e m, drop]) (.meet [e] .normal) :=
  andThen_pure (.meet [e] .normal) ▸ .cons (lays_marked hm hfill) (puts_silent (by simp))

theorem puts_meet (ev : α → Event) (make : α → List (LowerM Fragment)) (as : List α)
    (h : ∀ a ∈ as, Puts o (fun f => chain f (make a)) (.meet [ev a] .normal)) :
    Puts o (fun f => chain f (as.flatMap make)) (.meet (as.map ev) .normal) := by
  induction as with
  | nil => exact meet_nil ▸ puts_pure
  | cons a as ih =>
    have := (h a List.mem_cons_self).chain (ih fun a ha => h a (List.mem_cons_of_mem _ ha))
    rwa [meet_andThen] at this

/-! ## Conditions -/

/-- The outcomes of a condition are noted where the sides of a branch start. -/
structure Decides (o : Oracle) (c : Expr) (b : Branching) (s : State) : Prop where
  code : ∃ e, b.code = ⟨some e, none⟩
  yes : Passes o s .empty (.single b.yes) (.meet [.test c true] .normal)
  no : Passes o s .empty (.single b.no) (.meet [.test c false] .normal)
  tells : ∀ {w W n T e}, Later s w W → b.code.entry = some e →
    (∀ x : Bool, Tells o w n (fun met => T x (met ++ [.test c x])) (if x then b.yes else b.no)) →
    Tells o w n ((Run.test o.decide (some c)).goOn T) e

/-- From `s` on, a condition was lowered. -/
structure Tested (o : Oracle) (c : Expr) (s : State) (L : List Fragment) (b : Branching)
    (t : State) : Prop where
  step : Step s t
  inv : Inv t (.single b.yes :: .single b.no :: b.code :: L)
  decides : Decides o c b t

theorem tested_testing (o : Oracle) {c : Expr} (hc : c.throws = false) (hs : Inv s L) :
    Ends env (testing c) s (Tested o c s L) := by
  have hcondition := discipline.lowerCondition c (allows_of_not_throws hc)
  refine (branched_branchOnCondition hcondition hs.held).bind ?_
  rintro b s1 ⟨hq, hheld, hb⟩
  refine noted_noteEvent.bind fun _ s2 hn2 => ?_
  refine noted_noteEvent.bind fun _ t hn => ends_pure.mpr ?_
  obtain ⟨e, he, hge, hlt⟩ := hb.entry
  obtain ⟨hyes, hno⟩ := hb.lt
  have hevents : ∀ x, s.code.size ≤ x → t.sources.eventsAt x =
      if x = b.no then [.test c false] else if x = b.yes then [.test c true] else [] := by
    intro x hx
    rw [hn.events, hn2.events, hq.sources, hs.notes x hx]
    split
    · rw [if_neg (by omega)]
    · rfl
  have hcode : t.code = s1.code := hn.code.trans hn2.code
  have hinv : Inv t (.single b.yes :: .single b.no :: b.code :: L) := by
    refine hn.inv (hn2.inv (hs.quiet hq hheld) (hyes.trans hno)
      (hs.not_mem_joins hq.breakables (by omega))) ?_ ?_
    · rw [hn2.code]
      exact hno
    · exact hs.not_mem_joins (hn2.breakables.trans hq.breakables) (by omega)
  have hyesEvents : t.sources.eventsAt b.yes = [.test c true] := by
    rw [hevents _ (by omega), if_neg (by omega), if_pos rfl]
  have hnoEvents : t.sources.eventsAt b.no = [.test c false] := by
    rw [hevents _ (by omega), if_pos rfl]
  have hgoes := hb.goes
  rw [← hcode] at hno hgoes
  refine ⟨hn.step (hn2.step hq.step (by omega)) (by omega), hinv, ⟨e, he⟩, ?_, ?_, ?_⟩
  · exact hyesEvents ▸ passes_single (hyes.trans hno) hgoes.1
  · exact hnoEvents ▸ passes_single hno hgoes.2
  · intro w W n T e' hw he' hT
    obtain ⟨r, hr, hafter, htells⟩ := hb.fork (w := w) (hcode ▸ hw.code) fun x hx hlt hne hy hn => by
      rw [hw.events x (hcode ▸ hlt), hevents x hx, if_neg hn, if_neg hy]
    have hke : w.events e' = [] := by
      obtain rfl : e = e' := Option.some.inj ((he ▸ rfl : b.code.entry = some e).symm.trans he')
      rw [hw.events e (by omega), hevents e hge, if_neg (by omega), if_neg (by omega)]
    have := htells he' (tells_test hr hafter ((hw.events _ (hyes.trans hno)).trans hyesEvents)
      ((hw.events _ hno).trans hnoEvents) fun x => (hT x).mono (Nat.sub_le n 1))
    simpa only [hke, List.append_nil] using this

theorem Decides.mono {c : Expr} {b : Branching} (hb : Decides o c b s) (hs : Step s t) :
    Decides o c b t where
  code := hb.code
  yes := hb.yes.mono hs
  no := hb.no.mono hs
  tells hw := hb.tells (hs.later hw)

end Rules

end Flowgraph.Lowering.Trace
