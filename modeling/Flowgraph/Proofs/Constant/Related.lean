import Flowgraph.Proofs.Constant.Depth
import Flowgraph.Proofs.Symbols.Alike
import Mathlib.Data.List.Forall2

/-! # Memoization against unfolding

A computation that looks up fields in the store is compared with one that unfolds them.
The two run on stores with different pools, so that their values are compared without
numbers. If the first ends, the second ends alike from some depth on; or else the first
failed at a field that asks for itself, and then no depth is enough for the second.
-/

namespace Flowgraph.Constant

open Symbols (Table)

variable {α β γ δ : Type} {t : Table}

/-! ## Pairs of pools -/

/-- The constant is in the pool. -/
def Pool.Holds (p : Pool) (c : Value) : Prop := ∃ v ∈ p.values, v.bare = c

theorem Pool.Holds.mono {p q : Pool} {c : Value} (h : p.Holds c) (hpq : p.values <+: q.values) :
    q.Holds c := by
  obtain ⟨v, hv, rfl⟩ := h
  exact ⟨v, hpq.subset hv, rfl⟩

/-- The pools of two computations that are compared. -/
structure World where
  left : Pool
  right : Pool

structure World.Valid (w : World) : Prop where
  left : w.left.Valid
  right : w.right.Valid

/-- Both pools grow, and what one side adds the other side has at the end. -/
structure Grows (w w' : World) : Prop where
  left : w.left.values <+: w'.left.values
  right : w.right.values <+: w'.right.values
  leftNew : ∀ c, w'.left.Holds c → w.left.Holds c ∨ w'.right.Holds c
  rightNew : ∀ c, w'.right.Holds c → w.right.Holds c ∨ w'.left.Holds c

namespace Grows

theorem refl (w : World) : Grows w w :=
  ⟨List.prefix_rfl, List.prefix_rfl, fun _ => .inl, fun _ => .inl⟩

theorem trans {w w' w'' : World} (h : Grows w w') (h' : Grows w' w'') : Grows w w'' where
  left := h.left.trans h'.left
  right := h.right.trans h'.right
  leftNew c hc := (h'.leftNew c hc).elim
    (fun hc => (h.leftNew c hc).imp_right (·.mono h'.right)) .inr
  rightNew c hc := (h'.rightNew c hc).elim
    (fun hc => (h.rightNew c hc).imp_right (·.mono h'.left)) .inr

end Grows

/-- The same constant in both pools. -/
structure Same (w : World) (v v' : Value) : Prop where
  left : v ∈ w.left.values
  right : v' ∈ w.right.values
  bare : v.bare = v'.bare

theorem Same.mono {w w' : World} {v v' : Value} (h : Same w v v') (hw : Grows w w') :
    Same w' v v' :=
  ⟨hw.left.subset h.left, hw.right.subset h.right, h.bare⟩

/-! ## Invariants of a store -/

/-- A store in whose table everything is found as in `t`. -/
structure Steady (t : Table) (s : Store) : Prop where
  table : t.Alike s.table
  pool : s.pool.Valid

def Computing (s : Store) (id : Nat) : Prop := s.slots.slot id = .computing

/-- The depth is enough for the field. -/
def Halts (t : Table) (n id : Nat) : Prop :=
  ∃ s, Steady t s ∧ (evalFrom (unfoldField n id) s).1 ≠ .error .exhausted

/-- Where some depth is enough for the field, less is enough for one of the fields `B`. -/
def Stuck (t : Table) (B : Nat → Prop) (id : Nat) : Prop :=
  ∀ n, Halts t n id → ∃ h, B h ∧ ∃ m < n, Halts t m h

def SameKind (f g : Failure) : Prop := f.kind = g.kind ∧ f.code = g.code

def IsCyclic (f : Failure) : Prop := f.kind = .notConstant ∧ f.code = .cyclicConstant

theorem not_isCyclic_of (kind : FailureKind) (place : Position) (message : String) :
    ¬IsCyclic (.of kind place message) := by
  cases kind <;> simp [IsCyclic, Failure.of, FailureKind.code]

/-- The value is what the field unfolds to. -/
def Settled (t : Table) (p : Pool) (id : Nat) (v : Value) : Prop :=
  ∀ r, Steady t r → ∃ v' r', Tends (unfoldField · id) r (.ok v', r') ∧ Steady t r' ∧
    Grows ⟨p, r.pool⟩ ⟨p, r'.pool⟩ ∧ Same ⟨p, r'.pool⟩ v v'

/-- The failure is that of unfolding the field, or else the field asks for itself. -/
def Failed (t : Table) (B : Nat → Prop) (id : Nat) (f : Failure) : Prop :=
  (¬IsCyclic f ∧ ∀ r, Steady t r →
    ∃ g r', Tends (unfoldField · id) r (.error (.failed g), r') ∧ SameKind f g) ∨
    IsCyclic f ∧ Stuck t B id

/-- What is remembered is right, if the fields `B` ask for themselves. -/
structure Sound (t : Table) (B : Nat → Prop) (s : Store) : Prop extends Steady t s where
  value : ∀ id v, s.slots.slot id = .computed (.ok v) → Settled t s.pool id v
  failure : ∀ id f, s.slots.slot id = .computed (.error f) → Failed t B id f

/-- What every computation keeps. -/
structure Keeps (s s' : Store) : Prop where
  pool : s.pool.values <+: s'.pool.values
  computing : ∀ id, Computing s' id ↔ Computing s id

namespace Keeps

theorem refl (s : Store) : Keeps s s := ⟨List.prefix_rfl, fun _ => Iff.rfl⟩

theorem trans {s s' s'' : Store} (h : Keeps s s') (h' : Keeps s' s'') : Keeps s s'' :=
  ⟨h.pool.trans h'.pool, fun id => (h'.computing id).trans (h.computing id)⟩

end Keeps

/-! ## The relation -/

/-- How the end of a computation in `s` compares with `y` in `r`, which unfolds fields. -/
inductive Meets (t : Table) (V : World → α → β → Prop) (y : Nat → EvalM β) (s r : Store) :
    Except Stop α × Store → Prop
  | ok {a : α} {b : β} {s' r' : Store} : Tends y r (.ok b, r') → Sound t (fun _ => False) s' →
      Steady t r' → Keeps s s' → Grows ⟨s.pool, r.pool⟩ ⟨s'.pool, r'.pool⟩ →
      V ⟨s'.pool, r'.pool⟩ a b → Meets t V y s r (.ok a, s')
  | failed {f g : Failure} {s' r' : Store} : Tends y r (.error (.failed g), r') → SameKind f g →
      ¬IsCyclic f → Sound t (fun _ => False) s' → Keeps s s' →
      Meets t V y s r (.error (.failed f), s')
  /-- A field was asked for while it was computed. -/
  | blocked {f : Failure} {s' : Store} :
      (∀ n, (evalFrom (y n) r).1 ≠ .error .exhausted →
        ∃ h, Computing s h ∧ ∃ m ≤ n, Halts t m h) →
      IsCyclic f → Sound t (Computing s) s' → Keeps s s' → Meets t V y s r (.error (.failed f), s')
  | crashed {s' r' : Store} : Tends y r (.error .crashed, r') → Sound t (fun _ => False) s' →
      Keeps s s' → Meets t V y s r (.error .crashed, s')
  | exhausted {s' : Store} : Sound t (fun _ => False) s' → Keeps s s' →
      Meets t V y s r (.error .exhausted, s')

/-- From all later stores on, `x` compares with `y`. -/
def Related (t : Table) (V : World → α → β → Prop) (x : EvalM α) (y : Nat → EvalM β) (w : World) :
    Prop :=
  ∀ s r, Grows w ⟨s.pool, r.pool⟩ → Sound t (fun _ => False) s → Steady t r →
    Meets t V y s r (evalFrom x s)

variable {V : World → α → β → Prop} {x : EvalM α} {y : Nat → EvalM β} {w w' : World}

namespace Meets

variable {s r : Store} {result : Except Stop α × Store}

theorem congr {z : Nat → EvalM β} (h : Meets t V y s r result)
    (hlimit : ∀ q, Tends y r q → Tends z r q)
    (hdepth : ∀ n, (evalFrom (z n) r).1 ≠ .error .exhausted →
      (evalFrom (y n) r).1 ≠ .error .exhausted) : Meets t V z s r result := by
  cases h with
  | ok hy hs hr hkeeps hgrows hV => exact .ok (hlimit _ hy) hs hr hkeeps hgrows hV
  | failed hy hkind hf hs hkeeps => exact .failed (hlimit _ hy) hkind hf hs hkeeps
  | blocked hblocked hcyclic hs hkeeps =>
    exact .blocked (fun n hn => hblocked n (hdepth n hn)) hcyclic hs hkeeps
  | crashed hy hs hkeeps => exact .crashed (hlimit _ hy) hs hkeeps
  | exhausted hs hkeeps => exact .exhausted hs hkeeps

end Meets

namespace Related

theorem mono (h : Related t V x y w) (hw : Grows w w') : Related t V x y w' :=
  fun s r hw' => h s r (hw.trans hw')

theorem bind {W : World → γ → δ → Prop} {f : α → EvalM γ} {g : Nat → β → EvalM δ}
    (h : Related t V x y w)
    (hf : ∀ w', Grows w w' → w'.Valid → ∀ a b, V w' a b →
      Related t W (f a) (fun n => g n b) w') :
    Related t W (x >>= f) (fun n => y n >>= g n) w := by
  intro s r hw hsound hsteady
  have hx := h s r hw hsound hsteady
  rw [evalFrom_bind]
  generalize evalFrom x s = result at hx ⊢
  -- Where the second computation has an end, so has its first step.
  have hfirst (n : Nat) (hn : (evalFrom (y n >>= g n) r).1 ≠ .error .exhausted) :
      (evalFrom (y n) r).1 ≠ .error .exhausted := by
    intro hy
    rw [evalFrom_bind] at hn
    rcases hrun : evalFrom (y n) r with ⟨_ | _, _⟩ <;> simp_all
  cases hx with
  | @ok a b s' r' hy hs hr hkeeps hgrows hV =>
    have hrest := hf ⟨s'.pool, r'.pool⟩ (hw.trans hgrows) ⟨hs.pool, hr.pool⟩ a b hV s' r' (.refl _)
      hs hr
    dsimp only
    generalize evalFrom (f a) s' = result at hrest ⊢
    cases hrest with
    | ok hy' hs' hr' hkeeps' hgrows' hW =>
      exact .ok (hy.bind hy') hs' hr' (hkeeps.trans hkeeps') (hgrows.trans hgrows') hW
    | failed hy' hkind hf hs' hkeeps' =>
      exact .failed (hy.bind hy') hkind hf hs' (hkeeps.trans hkeeps')
    | blocked hblocked hcyclic hs' hkeeps' =>
      have hcomputing : Computing s' = Computing s :=
        funext fun id => propext (hkeeps.computing id)
      refine .blocked (fun n hn => ?_) hcyclic (hcomputing ▸ hs') (hkeeps.trans hkeeps')
      have hlimit := (hy.unique n).resolve_left (hfirst n hn)
      rw [evalFrom_bind, hlimit] at hn
      exact hcomputing ▸ hblocked n hn
    | crashed hy' hs' hkeeps' => exact .crashed (hy.bind hy') hs' (hkeeps.trans hkeeps')
    | exhausted hs' hkeeps' => exact .exhausted hs' (hkeeps.trans hkeeps')
  | failed hy hkind hf hs hkeeps => exact .failed hy.bind_error hkind hf hs hkeeps
  | blocked hblocked hcyclic hs hkeeps =>
    exact .blocked (fun n hn => hblocked n (hfirst n hn)) hcyclic hs hkeeps
  | crashed hy hs hkeeps => exact .crashed hy.bind_error hs hkeeps
  | exhausted hs hkeeps => exact .exhausted hs hkeeps

theorem pure {a : α} {b : β} (h : ∀ w', Grows w w' → w'.Valid → V w' a b) :
    Related t V (Pure.pure a) (fun _ => Pure.pure b) w := fun _ _ hw hs hr =>
  .ok .const hs hr (.refl _) (.refl _) (h _ hw ⟨hs.pool, hr.pool⟩)

theorem throw_failed {f g : Failure} (h : SameKind f g) (hf : ¬IsCyclic f) :
    Related t V (throw (.failed f)) (fun _ => throw (.failed g)) w := fun _ _ _ hs _ =>
  .failed .const h hf hs (.refl _)

theorem fail {kind : FailureKind} {place place' : Position} {message message' : String} :
    Related t V (Constant.fail kind place message) (fun _ => Constant.fail kind place' message') w :=
  throw_failed ⟨rfl, rfl⟩ (not_isCyclic_of _ _ _)

theorem throw_crashed : Related t V (throw .crashed) (fun _ => throw .crashed) w :=
  fun _ _ _ hs _ => .crashed .const hs (.refl _)

theorem throw_exhausted : Related t V (throw .exhausted) y w := fun _ _ _ hs _ =>
  .exhausted hs (.refl _)

theorem get {f : Store → EvalM α} {g : Nat → Store → EvalM β}
    (h : ∀ s r, t.Alike s.table → t.Alike r.table → Grows w ⟨s.pool, r.pool⟩ →
      Related t V (f s) (fun n => g n r) ⟨s.pool, r.pool⟩) :
    Related t V (MonadState.get >>= f) (fun n => MonadState.get >>= g n) w := by
  intro s r hw hs hr
  have hrest := h s r hs.table hr.table hw s r (.refl _) hs hr
  exact hrest.congr (fun q hq => hq.congr fun _ => rfl) fun _ hn => hn

theorem query {q : Table → Except Failure α} (hq : ∀ t', t.Alike t' → q t' = q t)
    (hf : ∀ f, q t = .error f → ¬IsCyclic f) :
    Related t (fun _ a b => a = b ∧ q t = .ok a) (Constant.query q) (fun _ => Constant.query q) w := by
  refine get fun s r hs hr hw => ?_
  rw [hq _ hs, hq _ hr]
  split
  · exact pure fun _ _ _ => ⟨rfl, by assumption⟩
  · exact throw_failed ⟨rfl, rfl⟩ (hf _ (by assumption))

theorem later {k : Nat} {z : Nat → EvalM β} (h : Related t V x y w)
    (hlow : ∀ n ≤ k, z n = throw .exhausted) (hhigh : ∀ n > k, z n = y n) :
    Related t V x z w := by
  intro s r hw hs hr
  refine (h s r hw hs hr).congr (fun q hq => hq.later hlow hhigh) fun n hn => ?_
  rcases Nat.lt_or_ge k n with hk | hk
  · exact hhigh n hk ▸ hn
  · rw [hlow n hk] at hn
    exact absurd rfl hn

/-! ### Lists -/

theorem mapM₂ {ι κ : Type} {f : ι → EvalM α} {g : Nat → κ → EvalM β} {l : List ι} {l' : List κ}
    (hV : ∀ w w' a b, Grows w w' → V w a b → V w' a b)
    (h : List.Forall₂ (fun i j => Related t V (f i) (fun n => g n j) w) l l') :
    Related t (fun w => List.Forall₂ (V w)) (l.mapM f) (fun n => l'.mapM (g n)) w := by
  induction l generalizing w l' with
  | nil =>
    cases h
    exact pure fun _ _ _ => .nil
  | cons i l ih =>
    cases h with
    | cons hhead htail =>
      simp only [List.mapM_cons]
      refine hhead.bind fun w1 hw1 _ a b hab => ?_
      refine (ih (htail.imp fun _ _ h => h.mono hw1)).bind fun w2 hw2 _ as bs habs => ?_
      exact pure fun w3 hw3 _ => .cons (hV _ _ _ _ (hw2.trans hw3) hab)
        (habs.imp fun a b => hV _ _ _ _ hw3)

theorem mapM {ι : Type} {f : ι → EvalM α} {g : Nat → ι → EvalM β} {l : List ι}
    (hV : ∀ w w' a b, Grows w w' → V w a b → V w' a b)
    (h : ∀ i ∈ l, Related t V (f i) (fun n => g n i) w) :
    Related t (fun w => List.Forall₂ (V w)) (l.mapM f) (fun n => l.mapM (g n)) w :=
  mapM₂ hV (List.forall₂_same.mpr h)

theorem foldlM {ι : Type} {f : α → ι → EvalM α} {g : Nat → β → ι → EvalM β} {l : List ι}
    (hV : ∀ w w' a b, Grows w w' → V w a b → V w' a b)
    (h : ∀ w', Grows w w' → ∀ i ∈ l, ∀ a b, V w' a b →
      Related t V (f a i) (fun n => g n b i) w') {a : α} {b : β} (hab : V w a b) :
    Related t V (l.foldlM f a) (fun n => l.foldlM (g n) b) w := by
  induction l generalizing w a b with
  | nil => exact pure fun _ hw _ => hV _ _ _ _ hw hab
  | cons i l ih =>
    simp only [List.foldlM_cons]
    refine (h w (.refl _) i (by simp) a b hab).bind fun w1 hw1 _ a b hab => ?_
    exact ih (fun w2 hw2 j hj => h w2 (hw1.trans hw2) j (by simp [hj])) hab

end Related

/-! ## Interning -/

theorem Pool.holds_intern_iff {p : Pool} {r : Request} (hp : p.Valid)
    (hparts : ∀ x ∈ r.parts, x ∈ p.values) (c : Value) :
    (p.intern r.make).2.Holds c ↔ p.Holds c ∨ c = r.bare := by
  constructor
  · rintro ⟨v, hv, rfl⟩
    rcases p.intern_cases r with ⟨u, hu, -, hr⟩ | ⟨-, hr⟩
    · exact .inl ⟨v, by simpa [hr] using hv, rfl⟩
    · simp only [hr, List.mem_append, List.mem_singleton] at hv
      rcases hv with hv | rfl
      · exact .inl ⟨v, hv, rfl⟩
      · exact .inr (by simp)
  · rintro (h | rfl)
    · exact h.mono (p.prefix_intern r)
    · exact ⟨_, p.mem_intern r, hp.bare_intern hparts⟩

theorem Settled.mono {p q : Pool} {id : Nat} {v : Value} (h : Settled t p id v)
    (hpq : p.values <+: q.values) : Settled t q id v := by
  intro r hr
  obtain ⟨v', r', htends, hr', hgrows, hsame⟩ := h r hr
  exact ⟨v', r', htends, hr', ⟨List.prefix_rfl, hgrows.right, fun _ => .inl, fun c hc =>
    (hgrows.rightNew c hc).imp_right (·.mono hpq)⟩, hpq.subset hsame.left, hsame.right, hsame.bare⟩

theorem Related.intern (q q' : Request) (hbare : q.bare = q'.bare)
    (hleft : ∀ x ∈ q.parts, x ∈ w.left.values) (hparts : ∀ x ∈ q'.parts, x ∈ w.right.values) :
    Related t Same (Constant.intern q.make) (fun _ => Constant.intern q'.make) w := by
  intro s r hw hs hr
  have hl : ∀ x ∈ q.parts, x ∈ s.pool.values := fun x hx => hw.left.subset (hleft x hx)
  have hr' : ∀ x ∈ q'.parts, x ∈ r.pool.values := fun x hx => hw.right.subset (hparts x hx)
  have hgrows := s.pool.prefix_intern q
  have hsound : Sound t (fun _ => False) { s with pool := (s.pool.intern q.make).2 } :=
    { table := hs.table
      pool := hs.pool.intern hl
      value := fun id v hv => (hs.value id v hv).mono hgrows
      failure := hs.failure }
  have hright : Tends (fun _ => Constant.intern q'.make) r
      (.ok (r.pool.intern q'.make).1, { r with pool := (r.pool.intern q'.make).2 }) := .const
  refine .ok hright hsound ⟨hr.table, hr.pool.intern hr'⟩ ⟨hgrows, fun _ => Iff.rfl⟩
    ⟨hgrows, r.pool.prefix_intern q', fun c hc => ?_, fun c hc => ?_⟩
    ⟨s.pool.mem_intern q, r.pool.mem_intern q', ?_⟩
  · rcases (Pool.holds_intern_iff hs.pool hl c).mp hc with hc | rfl
    · exact .inl hc
    · exact .inr ((Pool.holds_intern_iff hr.pool hr' _).mpr (.inr hbare))
  · rcases (Pool.holds_intern_iff hr.pool hr' c).mp hc with hc | rfl
    · exact .inl hc
    · exact .inr ((Pool.holds_intern_iff hs.pool hl _).mpr (.inr hbare.symm))
  · exact (hs.pool.bare_intern hl).trans (hbare.trans (hr.pool.bare_intern hr').symm)

end Flowgraph.Constant
