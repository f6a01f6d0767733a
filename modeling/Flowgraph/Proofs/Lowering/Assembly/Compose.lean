import Flowgraph.Proofs.Lowering.Assembly.Basic
import Flowgraph.Proofs.Lowering.Calculus

/-! # Putting pieces together

Every piece of code takes some values from the stack and leaves others there. What is
put behind it finds these values where they were left. Code is made in the region
where the source and the state are, and goes forward piece by piece in the room that
there is for it.
-/

namespace Flowgraph.Lowering.Assembly

open Flowgraph.Graph (Fragment)
open Scoping (Variable)

/-- The first `u` values are taken from a stack, and `v` others are put there. -/
structure Effect (u v : Nat) (l l' : List Nat) : Prop where
  enough : u ≤ l.length
  length : l'.length + u = l.length + v
  rest : l'.drop v = l.drop u

/-- There is room from `p` on and before `q`, and what is reserved for labels comes later. If it
is `bound`, code is made where the source and the state are in its region. Other code throws
nothing and has no blocks. -/
structure Room (ordered bound : Bool) (env : Env) (P : Kept) (p q : Mark) : Prop where
  lt : p < q
  labels : ∀ l ∈ P.labels, q.rank ≤ l.rank
  checks : ordered = true → env.settings.stackChecks = true
  state : bound = true → P.tries.headD Graph.noTry = p.region
  source : bound = true → coverOf env.within = p.region

/-- From `s` on, a fragment was made that takes `u` values and leaves `v`. Control enters it with
the note `a` and leaves it at `q`. -/
structure Made (ordered : Bool) (s : State) (γ : Notes) (P : Kept) (L : List Fragment) (a : Note)
    (u v : Nat) (q : Mark) (f : Fragment) (s' : State) (γ' : Notes) : Prop where
  inv : Inv ordered s' γ' P (f :: L)
  step : Step s γ s' γ'
  effect : Effect u v (values s) (values s')
  spans : Spans ordered s'.code γ' a f ⟨values s', q⟩
  around : around s' = around s

/-- The step makes code that takes `u` values from the stack and leaves `v`. -/
def Creates (ordered bound : Bool) (m : LowerM Fragment) (u v : Nat) : Prop :=
  ∀ env s γ P L p q, Inv ordered s γ P L → Room ordered bound env P p q →
    Ends env m s fun f s' => ∃ γ', Made ordered s γ P L ⟨values s, p⟩ u v q f s' γ'

/-- The step puts such code behind the fragment it is given. -/
def Extends (ordered bound : Bool) (k : Fragment → LowerM Fragment) (u v : Nat) : Prop :=
  ∀ env s γ P L a p q f, Inv ordered s γ P (f :: L) → Room ordered bound env P p q →
    Spans ordered s.code γ a f ⟨values s, p⟩ →
    Ends env (k f) s fun f' s' => ∃ γ', Made ordered s γ P L a u v q f' s' γ'

/-! ## Silent steps -/

instance : Steady Same where
  refl := .refl
  trans := .trans
  turn _ _ _ := ⟨⟨rfl, rfl, rfl, rfl, rfl⟩, rfl, rfl, rfl⟩
  reframe _ _ := ⟨⟨rfl, rfl, rfl, rfl, rfl⟩, rfl, rfl, rfl⟩
  rename h := ⟨⟨rfl, rfl, rfl, rfl, rfl⟩, rfl, h, rfl⟩

instance : Carefree Same := ⟨fun _ _ _ => ⟨⟨rfl, rfl, rfl, rfl, rfl⟩, rfl, rfl, rfl⟩⟩

/-- The step touches nothing that matters. -/
abbrev Silent {α : Type} (m : LowerM α) : Prop := Within Same m

theorem silent_modify {f : State → State} (h : ∀ s, Same s (f s)) :
    Silent (modify f : LowerM PUnit) := within_modify h

instance (place : Option Nat) (e : Graph.Event) : Silent (noteEvent place e) :=
  silent_modify fun _ => ⟨⟨rfl, rfl, rfl, rfl, rfl⟩, rfl, rfl, rfl⟩

theorem ends_makeTemporary (env : Env) (s : State) :
    Ends env makeTemporary s fun _ t => Same s t ∧ 1 ≤ (values s).length := by
  unfold makeTemporary
  rw [ends_bind, ends_get]
  split
  · exact ends_inconsistent
  · rename_i top stack hs
    rw [ends_bind, ends_modify, ends_pure]
    exact ⟨⟨⟨rfl, rfl, rfl, rfl, rfl⟩, rfl, by simp [values, hs], rfl⟩, by simp [values, hs]⟩

/-! ## Effects -/

section Effects

variable {u v u' v' : Nat} {l l' l'' : List Nat}

theorem Effect.refl (l : List Nat) : Effect 0 0 l l := ⟨Nat.zero_le _, rfl, rfl⟩

theorem Effect.trans (h : Effect u v l l') (g : Effect u' v' l' l'') :
    Effect (u + (u' - v)) (v' + (v - u')) l l'' where
  enough := by
    have := h.length
    have := h.enough
    have := g.enough
    omega
  length := by
    have := h.length
    have := g.length
    omega
  rest := by
    rw [← List.drop_drop, g.rest, ← List.drop_drop, ← h.rest, List.drop_drop, List.drop_drop]
    congr 1
    omega

theorem effect_append (l k rest : List Nat) :
    Effect l.length k.length (l ++ rest) (k ++ rest) := by
  constructor
  · simp
  · simp
    omega
  · simp

theorem Effect.below (h : Effect u v l l') {n : Nat} (hn : u + n ≤ l.length) :
    Effect (u + n) (v + n) l l' where
  enough := hn
  length := by
    have := h.length
    omega
  rest := by rw [← List.drop_drop, h.rest, List.drop_drop]

theorem Effect.eq (h : Effect 0 0 l l') : l' = l := h.rest

theorem Effect.uncons (h : Effect 0 1 l l') : ∃ v, l' = v :: l := by
  have hlen := h.length
  have hrest := h.rest
  cases l' with
  | nil => simp at hlen
  | cons v l' => exact ⟨v, by simpa using hrest⟩

end Effects

/-! ## Rules -/

section Rules

variable {α : Type} {o b : Bool} {env : Env} {m : LowerM Fragment}
  {k k' : Fragment → LowerM Fragment} {u v u' v' : Nat} {s s' s'' : State} {γ γ' γ'' : Notes}
  {P : Kept} {L : List Fragment} {a : Note} {p q r r' : Mark} {f g : Fragment}

theorem Room.within (h : Room o b env P p q) (hr : p ≤ r) (hlt : r < r') (hr' : r' ≤ q) :
    Room o b env P r r' where
  lt := hlt
  labels l hl := hr'.2.trans (h.labels l hl)
  checks := h.checks
  state hb := (h.state hb).trans hr.1
  source hb := (h.source hb).trans hr.1

theorem Room.split (h : Room o b env P p q) : ∃ r, Room o b env P p r ∧ Room o b env P r q := by
  obtain ⟨r, hpr, hrq⟩ := exists_between h.lt
  exact ⟨r, h.within le_rfl hpr hrq.le, h.within hpr.le hrq le_rfl⟩

theorem Room.le (h : Room o b env P p q) : p ≤ q := h.lt.le

theorem Room.last (h : Room o true env P p q) : P.tries.headD Graph.noTry = q.region :=
  (h.state rfl).trans h.lt.1

theorem Room.trans (h : Room o b env P p r) (h' : Room o b env P r q) : Room o b env P p q :=
  { h with lt := h.lt.trans h'.lt, labels := h'.labels }

theorem Made.same (h : Made o s γ P L a u v q f s' γ') (hs : Same s' s'') :
    Made o s γ P L a u v q f s'' γ' where
  inv := h.inv.congr hs
  step := h.step.trans (hs.step γ')
  effect := hs.values ▸ h.effect
  spans := by
    rw [hs.code, hs.values]
    exact h.spans
  around := hs.around.trans h.around

theorem Made.trans {a' : Note} {L' : List Fragment} (h : Made o s γ P L' a u v r f s' γ')
    (h' : Made o s' γ' P L a' u' v' q g s'' γ'') :
    Made o s γ P L a' (u + (u' - v)) (v' + (v - u')) q g s'' γ'' where
  inv := h'.inv
  step := h.step.trans h'.step
  effect := h.effect.trans h'.effect
  spans := h'.spans
  around := h'.around.trans h.around

/-- Something was made that left the stack as it was. -/
structure Calm (s : State) (γ : Notes) (s' : State) (γ' : Notes) : Prop where
  step : Step s γ s' γ'
  values : values s' = values s
  around : around s' = around s

theorem Calm.trans (h : Calm s γ s' γ') (h' : Calm s' γ' s'' γ'') : Calm s γ s'' γ'' :=
  ⟨h.step.trans h'.step, h'.values.trans h.values, h'.around.trans h.around⟩

theorem Calm.breakables (h : Calm s γ s' γ') : s'.breakables = s.breakables :=
  breakables_of_around h.around

theorem Calm.switches (h : Calm s γ s' γ') : s'.switches = s.switches := switches_of_around h.around

theorem Same.calm (h : Same s s') (γ : Notes) : Calm s γ s' γ := ⟨h.step γ, h.values, h.around⟩

theorem Made.calm (h : Made o s γ P L a 0 0 q f s' γ') : Calm s γ s' γ' :=
  ⟨h.step, h.effect.eq, h.around⟩

theorem Made.after (h : Made o s' γ' P L a u v q f s'' γ'') (hc : Calm s γ s' γ') :
    Made o s γ P L a u v q f s'' γ'' where
  inv := h.inv
  step := hc.step.trans h.step
  effect := hc.values ▸ h.effect
  spans := h.spans
  around := h.around.trans hc.around

theorem Spans.calm (h : Spans o s.code γ a f ⟨values s, p⟩) (hc : Calm s γ s' γ') :
    Spans o s'.code γ' a f ⟨values s', p⟩ := hc.values ▸ h.step hc.step

theorem extends_pure : Extends o b pure 0 0 := fun _ _ γ _ _ _ _ _ _ hi room sp =>
  ends_pure.mpr ⟨γ, hi, .refl _ _, .refl _, sp.until room.le, rfl⟩

theorem Creates.bind (hm : Creates o b m u v) (hk : Extends o b k u' v') :
    Creates o b (m >>= k) (u + (u' - v)) (v' + (v - u')) := by
  intro env s γ P L p q hi room
  obtain ⟨r, room1, room2⟩ := room.split
  refine (hm env s γ P L p r hi room1).bind ?_
  rintro f s1 ⟨γ1, h1⟩
  refine (hk env s1 γ1 P L _ r q f h1.inv room2 h1.spans).mono ?_
  rintro g s2 ⟨γ2, h2⟩
  exact ⟨γ2, h1.trans h2⟩

theorem Extends.trans (hk : Extends o b k u v) (hk' : Extends o b k' u' v') :
    Extends o b (fun f => k f >>= k') (u + (u' - v)) (v' + (v - u')) := by
  intro env s γ P L a p q f hi room sp
  obtain ⟨r, room1, room2⟩ := room.split
  refine (hk env s γ P L a p r f hi room1 sp).bind ?_
  rintro g s1 ⟨γ1, h1⟩
  refine (hk' env s1 γ1 P L a r q g h1.inv room2 h1.spans).mono ?_
  rintro h s2 ⟨γ2, h2⟩
  exact ⟨γ2, h1.trans h2⟩

theorem made_behind (sp : Spans o s.code γ a f ⟨values s, p⟩)
    (h : Ends env m s fun g s' => ∃ γ', Made o s γ P (f :: L) ⟨values s, p⟩ u v q g s' γ') :
    Ends env (m >>= append f) s fun g s' => ∃ γ', Made o s γ P L a u v q g s' γ' := by
  refine h.bind ?_
  rintro g s1 ⟨γ1, h1⟩
  obtain ⟨hi2, st2, sp2⟩ := h1.inv.swap.append (sp.step h1.step) h1.spans
  exact ends_append.mpr ⟨γ1, hi2, h1.step.trans st2, h1.effect, sp2, h1.around⟩

theorem Creates.append (hm : Creates o b m u v) : Extends o b (fun f => m >>= append f) u v :=
  fun env s γ P L _ p q f hi room sp => made_behind sp (hm env s γ P (f :: L) p q hi room)

theorem chain_one (f : Fragment) (m : LowerM Fragment) : chain f [m] = m >>= Lowering.append f := by
  simp only [chain, bind_pure]

theorem chain_pure (f g : Fragment) (ms : List (LowerM Fragment)) :
    chain f (pure g :: ms) = append f g >>= fun h => chain h ms := by
  simp only [chain, pure_bind]

theorem made_empty (hi : Inv o s γ P L) (hpq : p ≤ q) :
    Made o s γ P L ⟨values s, p⟩ 0 0 q .empty s γ :=
  ⟨hi.empty, .refl _ _, .refl _, spans_empty ⟨List.Subset.refl _, hpq⟩, rfl⟩

theorem creates_empty : Creates o b (pure .empty) 0 0 := fun _ _ γ _ _ _ _ hi room =>
  ends_pure.mpr ⟨γ, made_empty hi room.le⟩

theorem ends_silent {β : Type} {x : LowerM α} {k : α → LowerM β} {Q : β → State → Prop}
    [hx : Silent x] (hk : ∀ y s', Same s s' → Ends env (k y) s' Q) : Ends env (x >>= k) s Q :=
  (hx.ends env s).bind hk

theorem Creates.silent {x : LowerM α} {k : α → LowerM Fragment} [Silent x]
    (hk : ∀ y, Creates o b (k y) u v) : Creates o b (x >>= k) u v := by
  intro env s γ P L p q hi room
  refine ends_silent fun y s1 same => ?_
  refine (hk y env s1 γ P L p q (hi.congr same) room).mono ?_
  rintro f s2 ⟨γ2, h2⟩
  exact ⟨γ2, (same.values ▸ h2).after (same.calm γ)⟩

theorem Extends.silent {x : LowerM α} {k : α → Fragment → LowerM Fragment} [Silent x]
    (hk : ∀ y, Extends o b (k y) u v) : Extends o b (fun f => x >>= fun y => k y f) u v := by
  intro env s γ P L a p q f hi room sp
  refine ends_silent fun y s1 same => ?_
  refine (hk y env s1 γ P L a p q f (hi.congr same) room (sp.calm (same.calm γ))).mono ?_
  rintro g s2 ⟨γ2, h2⟩
  exact ⟨γ2, h2.after (same.calm γ)⟩

theorem Creates.above {k : Variable → LowerM Fragment} (hk : ∀ v, Creates o b (k v) 0 0) :
    Creates o b (makeTemporary >>= k) 1 1 := by
  intro env s γ P L p q hi room
  refine (ends_makeTemporary env s).bind fun v t ⟨same, hlen⟩ => ?_
  refine (hk v env t γ P L p q (hi.congr same) room).mono ?_
  rintro f s' ⟨γ', h⟩
  have h := (same.values ▸ h).after (same.calm γ)
  exact ⟨γ', { h with effect := h.effect.below (n := 1) (by omega) }⟩

end Rules

end Flowgraph.Lowering.Assembly
