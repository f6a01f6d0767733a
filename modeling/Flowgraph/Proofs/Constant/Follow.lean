import Flowgraph.Proofs.Constant.History

/-! # Following an evaluation

A computation that unfolds fields follows one that ends with a value if it ends alike.
It need not do all that the first one does, so that only the values are compared.
-/

namespace Flowgraph.Constant

open Symbols (Table)

variable {α β γ δ : Type} {t : Table} {w w' : World}

/-- Both pools grow. -/
structure Later (w w' : World) : Prop where
  left : w.left.values <+: w'.left.values
  right : w.right.values <+: w'.right.values

namespace Later

theorem refl (w : World) : Later w w := ⟨List.prefix_rfl, List.prefix_rfl⟩

theorem trans {w w' w'' : World} (h : Later w w') (h' : Later w' w'') : Later w w'' :=
  ⟨h.left.trans h'.left, h.right.trans h'.right⟩

theorem same {v v' : Value} (hw : Later w w') (h : Same w v v') : Same w' v v' :=
  ⟨hw.left.subset h.left, hw.right.subset h.right, h.bare⟩

theorem env {κ : Type} {a b : List (κ × Value)} (hw : Later w w') (h : SameEnv w a b) : SameEnv w' a b :=
  h.imp fun _ _ h => ⟨h.1, hw.same h.2⟩

theorem actuals {a b : Actuals} (hw : Later w w') (h : SameActuals w a b) : SameActuals w' a b :=
  ⟨h.positional.imp fun _ _ => hw.same, hw.env h.named⟩

theorem receiver {a b : Receiver} (hw : Later w w') (h : SameReceiver w a b) : SameReceiver w' a b :=
  h.imp fun _ _ h => by
    cases h with
    | some h => exact .some (hw.same h)
    | none => exact .none

end Later

/-- Where `x` ends with a value, `y` ends with a like one. -/
def Follows (t : Table) (V : World → α → β → Prop) (x : EvalM α) (y : Nat → EvalM β) (w : World) : Prop :=
  ∀ s r a s', Later w ⟨s.pool, r.pool⟩ → Sound t (fun _ => False) s → Steady t r →
    evalFrom x s = (.ok a, s') → ∃ b r', Tends y r (.ok b, r') ∧ Sound t (fun _ => False) s' ∧
      Steady t r' ∧ Later ⟨s.pool, r.pool⟩ ⟨s'.pool, r'.pool⟩ ∧ V ⟨s'.pool, r'.pool⟩ a b

theorem evalFrom_bind_ok {x : EvalM α} {f : α → EvalM γ} {s s' : Store} {c : γ}
    (h : evalFrom (x >>= f) s = (.ok c, s')) :
    ∃ a r, evalFrom x s = (.ok a, r) ∧ evalFrom (f a) r = (.ok c, s') := by
  rw [evalFrom_bind] at h
  rcases hx : evalFrom x s with ⟨_ | a, r⟩
  · rw [hx] at h
    cases h
  · rw [hx] at h
    exact ⟨a, r, rfl, h⟩

theorem evalFrom_query (q : Table → Except Failure α) (s : Store) : evalFrom (query q) s =
    match q s.table with
    | .ok a => (.ok a, s)
    | .error f => (.error (.failed f), s) := by
  unfold query
  rw [evalFrom_bind, evalFrom_get]
  dsimp only
  cases q s.table <;> rfl

namespace Follows

variable {V : World → α → β → Prop} {W : World → γ → δ → Prop} {x : EvalM α} {y : Nat → EvalM β}

theorem of_related (h : ∀ w', Later w w' → Related t V x y w') : Follows t V x y w := by
  intro s r a s' hw hs hr hrun
  have hmeets := hrun ▸ h _ hw s r (.refl _) hs hr
  cases hmeets with
  | ok hy hs' hr' _ hgrows hab => exact ⟨_, _, hy, hs', hr', ⟨hgrows.left, hgrows.right⟩, hab⟩

theorem bind {f : α → EvalM γ} {g : Nat → β → EvalM δ} (hx : Follows t V x y w)
    (hf : ∀ w' a b, Later w w' → V w' a b → Follows t W (f a) (fun n => g n b) w') :
    Follows t W (x >>= f) (fun n => y n >>= g n) w := by
  intro s r c s' hw hs hr hrun
  obtain ⟨a, s1, hfirst, hrest⟩ := evalFrom_bind_ok hrun
  obtain ⟨b, r1, hy, hs1, hr1, hw1, hab⟩ := hx s r a s1 hw hs hr hfirst
  obtain ⟨d, r', hz, hs', hr', hw', hcd⟩ :=
    hf _ a b (hw.trans hw1) hab s1 r1 c s' (.refl _) hs1 hr1 hrest
  exact ⟨d, r', hy.bind hz, hs', hr', hw1.trans hw', hcd⟩

/-- A step that is not followed. -/
theorem drop {P : α → Prop} {f : α → EvalM γ} {z : Nat → EvalM δ} (hx : Follows t (fun _ a _ => P a) x y w)
    (hf : ∀ w' a, Later w w' → P a → Follows t W (f a) z w') : Follows t W (x >>= f) z w := by
  intro s r c s' hw hs hr hrun
  obtain ⟨a, s1, hfirst, hrest⟩ := evalFrom_bind_ok hrun
  obtain ⟨_, _, -, hs1, -, hw1, ha⟩ := hx s r a s1 hw hs hr hfirst
  have hw2 : Later ⟨s.pool, r.pool⟩ ⟨s1.pool, r.pool⟩ := ⟨hw1.left, List.prefix_rfl⟩
  obtain ⟨d, r', hz, hs', hr', hw', hcd⟩ :=
    hf _ a (hw.trans hw2) ha s1 r c s' (.refl _) hs1 hr hrest
  exact ⟨d, r', hz, hs', hr', hw2.trans hw', hcd⟩

theorem mono {V' : World → α → β → Prop} (h : Follows t V x y w) (hV : ∀ w a b, V w a b → V' w a b) :
    Follows t V' x y w := by
  intro s r a s' hw hs hr hrun
  obtain ⟨b, r', hy, hs', hr', hw', hab⟩ := h s r a s' hw hs hr hrun
  exact ⟨b, r', hy, hs', hr', hw', hV _ a b hab⟩

theorem pure {a : α} {b : β} (h : ∀ w', Later w w' → V w' a b) :
    Follows t V (Pure.pure a) (fun _ => Pure.pure b) w := by
  intro s r _ _ hw hs hr hrun
  cases hrun
  exact ⟨b, r, .const, hs, hr, .refl _, h _ hw⟩

theorem throw (stop : Stop) : Follows t V (throw stop) y w := by
  intro s r a s' _ _ _ hrun
  cases hrun

theorem passed {c : Prop} [Decidable c] {kind : FailureKind} {place : Position} {message : String}
    {f : γ → EvalM α} (h : ¬c → Follows t V x y w) :
    Follows t V (if c then fail kind place message >>= f else x) y w := by
  split
  · intro s r a s' _ _ _ hrun
    cases hrun
  · exact h ‹_›

theorem get {f : Store → EvalM α} {g : Nat → Store → EvalM β}
    (h : ∀ s r, t.Alike s.table → t.Alike r.table → Follows t V (f s) (fun n => g n r) w) :
    Follows t V (MonadState.get >>= f) (fun n => MonadState.get >>= g n) w := by
  intro s r a s' hw hs hr hrun
  obtain ⟨b, r', hy, hrest⟩ := h s r hs.table hr.table s r a s' hw hs hr hrun
  exact ⟨b, r', hy.congr fun _ => rfl, hrest⟩

/-- The first computation alone looks at the table. -/
theorem reads {f : Store → EvalM α} (h : ∀ s, t.Alike s.table → Follows t V (f s) y w) :
    Follows t V (MonadState.get >>= f) y w :=
  fun s r a s' hw hs hr hrun => h s hs.table s r a s' hw hs hr hrun

theorem query {q : Table → Except Failure α} (hq : ∀ t', t.Alike t' → q t' = q t) :
    Follows t (fun _ a b => a = b ∧ q t = .ok a) (query q) (fun _ => query q) w := by
  refine get fun s r hs hr => ?_
  rw [hq _ hs, hq _ hr]
  split
  · exact pure fun _ _ => ⟨rfl, by assumption⟩
  · exact throw _

/-- The second computation alone looks at the table. -/
theorem asks {q : Table → Except Failure δ} {d : δ} {g : Nat → δ → EvalM β}
    (hq : ∀ t', t.Alike t' → q t' = .ok d) (h : Follows t V x (fun n => g n d) w) :
    Follows t V x (fun n => Constant.query q >>= g n) w := by
  intro s r a s' hw hs hr hrun
  obtain ⟨b, r', hy, hrest⟩ := h s r a s' hw hs hr hrun
  refine ⟨b, r', hy.congr fun n => ?_, hrest⟩
  rw [evalFrom_bind, evalFrom_query, hq _ hr.table]

theorem deeper {Y : Nat → Nat → EvalM β} {k : Nat} (hzero : ∀ n, Y n 0 = MonadExcept.throw .exhausted)
    (h : Follows t V x (fun n => Y n (n - (k + 1) + 1)) w) : Follows t V x (fun n => Y n (n - k)) w := by
  intro s r a s' hw hs hr hrun
  obtain ⟨b, r', hy, hrest⟩ := h s r a s' hw hs hr hrun
  refine ⟨b, r', hy.later (k := k) (fun n hn => ?_) fun n hn => ?_, hrest⟩
  · rw [Nat.sub_eq_zero_of_le hn, hzero]
  · rw [show n - k = n - (k + 1) + 1 by omega]

end Follows

end Flowgraph.Constant
