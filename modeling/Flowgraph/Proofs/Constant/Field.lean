import Flowgraph.Proofs.Constant.Related

/-! # Constant fields

A field that is looked up compares with one that is unfolded. A request that meets its
own computation is the one case in which they differ: no depth is enough to unfold such
a field.
-/

namespace Flowgraph.Constant

open Symbols (Table)

variable {t : Table} {B B' : Nat → Prop} {id : Nat} {s : Store}

namespace Store

/-- Change what is remembered of a field. -/
def put (s : Store) (id : Nat) (content : Memo.Slot Failure Value) : Store :=
  { s with slots := s.slots.put id content }

end Store

theorem memoize_run {κ π ε α σ : Type} [DecidableEq κ] (place : Memo.Place σ κ ε α) (key : κ)
    (cyclic : ε) (compute : StateM σ (Memo.Ending π ε α)) (s : σ) :
    (Memo.memoize place key cyclic compute).run s = match (place.slots s).slot key with
      | .computed (.ok a) => (.value a, s)
      | .computed (.error e) => (.error e, s)
      | .computing => (.error cyclic, s)
      | .idle =>
        let (ending, r) := compute.run (place.update (·.put key .computing) s)
        (ending, place.update (·.put key ending.slot) r) := by
  unfold Memo.memoize Memo.memoizeWith
  rw [StateT.run_bind, StateT.run_get]
  simp only [pure_bind]
  rcases (place.slots s).slot key with _ | _ | (e | a) <;> rfl

theorem evalFrom_memoizeField (id : Nat) (compute : EvalM Value) (s : Store) :
    evalFrom (memoizeField id compute) s = match s.slots.slot id with
      | .computed (.ok v) => (.ok v, s)
      | .computed (.error f) => (.error (.failed f), s)
      | .computing => (.error (.failed (cyclicField s.table id)), s)
      | .idle => match evalFrom compute (s.put id .computing) with
        | (.ok v, r) => (.ok v, r.put id (.computed (.ok v)))
        | (.error (.failed f), r) =>
          (.error (.failed (remembered id f)), r.put id (.computed (.error (remembered id f))))
        | (.error stop, r) => (.error stop, r.put id .idle) := by
  have hlift {α : Type} (m : StateM Store α) : evalFrom (liftM m : EvalM α) s =
      (.ok (m.run s).1, (m.run s).2) := rfl
  unfold memoizeField
  rw [evalFrom_bind, evalFrom_get]
  simp only [evalFrom_bind, hlift, memoize_run, fieldSlots]
  rcases s.slots.slot id with _ | _ | (f | v)
  · simp only [StateT.run_bind]
    have hcompute : compute.run.run { s with slots := s.slots.put id .computing } =
        evalFrom compute (s.put id .computing) := rfl
    rw [hcompute]
    rcases evalFrom compute (s.put id .computing) with ⟨(_ | _ | _) | v, r⟩ <;> rfl
  · rfl
  · rfl
  · rfl

/-! ## Fields that ask for themselves -/

theorem Stuck.mono (h : Stuck t B id) (hB : ∀ i, B i → B' i) : Stuck t B' id := fun n hn =>
  (h n hn).imp fun i ⟨hi, hm⟩ => ⟨hB i hi, hm⟩

/-- A field that waits for itself waits for the others. By induction on the depth: if it is
enough for the field, less is. -/
theorem Stuck.self (h : Stuck t (fun i => i = id ∨ B i) id) : Stuck t B id := by
  intro n hn
  induction n using Nat.strongRecOn with
  | ind n ih =>
    obtain ⟨i, rfl | hi, m, hm, hhalts⟩ := h n hn
    · obtain ⟨j, hj, k, hk, hhalts'⟩ := ih m hm hhalts
      exact ⟨j, hj, k, by omega, hhalts'⟩
    · exact ⟨i, hi, m, hm, hhalts⟩

theorem Stuck.trans {i : Nat} (h : Stuck t (fun j => j = id ∨ B j) i) (hid : Stuck t B id) :
    Stuck t B i := by
  intro n hn
  obtain ⟨j, rfl | hj, m, hm, hhalts⟩ := h n hn
  · obtain ⟨j, hj, k, hk, hhalts'⟩ := hid m hhalts
    exact ⟨j, hj, k, by omega, hhalts'⟩
  · exact ⟨j, hj, m, hm, hhalts⟩

theorem Failed.imp {f : Failure} (h : Failed t B id f) (hB : Stuck t B id → Stuck t B' id) :
    Failed t B' id f :=
  Or.imp_right (And.imp_right hB) h

theorem Sound.imp (h : Sound t B s) (hB : ∀ i, Stuck t B i → Stuck t B' i) : Sound t B' s :=
  { h with failure := fun i f hf => (h.failure i f hf).imp (hB i) }

theorem Sound.put {content : Memo.Slot Failure Value} (h : Sound t B s)
    (hvalue : ∀ v, content = .computed (.ok v) → Settled t s.pool id v)
    (hfailure : ∀ f, content = .computed (.error f) → Failed t B id f) :
    Sound t B (s.put id content) where
  table := h.table
  pool := h.pool
  value i v hv := by
    by_cases hi : i = id
    · subst hi
      exact hvalue v (by simpa [Store.put] using hv)
    · exact h.value i v (by simpa [Store.put, hi] using hv)
  failure i f hf := by
    by_cases hi : i = id
    · subst hi
      exact hfailure f (by simpa [Store.put] using hf)
    · exact h.failure i f (by simpa [Store.put, hi] using hf)

theorem computing_put_computing (s : Store) (id : Nat) :
    Computing (s.put id .computing) = fun i => i = id ∨ Computing s i := by
  funext i
  by_cases hi : i = id
  · simp [Computing, Store.put, hi]
  · simp [Computing, Store.put, hi]

/-- A computation between the request for a field and its end. -/
theorem Keeps.put {content : Memo.Slot Failure Value} {s' : Store} (hidle : s.slots.slot id = .idle)
    (h : Keeps (s.put id .computing) s') (hcontent : content ≠ .computing) :
    Keeps s (s'.put id content) where
  pool := h.pool
  computing i := by
    by_cases hi : i = id
    · subst hi
      simp [Computing, Store.put, hidle, hcontent]
    · have := h.computing i
      simpa [Computing, Store.put, hi] using this

/-- A field that is looked up against one that is unfolded. -/
theorem Related.field {compute : EvalM Value}
    (h : ∀ w, Related t Same compute (fun n => fieldCode (unfoldField n) n id) w) (w : World) :
    Related t Same (memoizeField id compute) (fun n => unfoldField n id) w := by
  intro s r hw hs hr
  have hlimit {r : Store} {q : Except Stop Value × Store}
      (hq : Tends (fun n => fieldCode (unfoldField n) n id) r q) : Tends (unfoldField · id) r q :=
    hq.succ rfl fun _ => rfl
  rw [evalFrom_memoizeField]
  rcases hslot : s.slots.slot id with _ | _ | (f | v)
  · -- The field is computed now.
    have hs1 : Sound t (fun _ => False) (s.put id .computing) := hs.put (by simp) (by simp)
    have hcode (r : Store) (hr : Steady t r) := h ⟨s.pool, r.pool⟩ (s.put id .computing) r (.refl _) hs1 hr
    generalize evalFrom compute (s.put id .computing) = result at hcode
    cases hcode r hr with
    | ok hy hs' hr' hkeeps hgrows hsame =>
      refine .ok (hlimit hy) (hs'.put ?_ (by simp)) hr' (hkeeps.put hslot (by simp)) hgrows hsame
      rintro v ⟨⟩ r2 hr2
      cases hcode r2 hr2 with
      | ok hy hs' hr' hkeeps hgrows hsame =>
        exact ⟨_, _, hlimit hy, hr', ⟨List.prefix_rfl, hgrows.right, fun _ => .inl, hgrows.rightNew⟩,
          hsame⟩
    | failed hy hkind hf hs' hkeeps =>
      refine .failed (hlimit hy) hkind hf (hs'.put (by simp) ?_) (hkeeps.put hslot (by simp))
      rintro f ⟨⟩
      refine .inl ⟨hf, fun r2 hr2 => ?_⟩
      cases hcode r2 hr2 with
      | failed hy hkind hf hs' hkeeps => exact ⟨_, _, hlimit hy, hkind⟩
      | blocked _ hcyclic _ _ => exact absurd hcyclic hf
    | blocked hblocked hcyclic hs' hkeeps =>
      have hstuck : Stuck t (Computing s) id := by
        refine Stuck.self fun n ⟨r2, hr2, hn⟩ => ?_
        cases n with
        | zero => exact absurd rfl hn
        | succ n =>
          cases hcode r2 hr2 with
          | failed _ _ hf _ _ => exact absurd hcyclic hf
          | blocked hblocked _ _ _ =>
            obtain ⟨i, hi, m, hm, hhalts⟩ := hblocked n hn
            rw [computing_put_computing] at hi
            exact ⟨i, hi, m, by omega, hhalts⟩
      rw [computing_put_computing] at hs'
      have hs'' : Sound t (Computing s) _ := hs'.imp fun i hi => hi.trans hstuck
      refine .blocked (fun n hn => ?_) hcyclic (hs''.put (by simp) ?_) (hkeeps.put hslot (by simp))
      · obtain ⟨i, hi, m, hm, hhalts⟩ := hstuck n ⟨r, hr, hn⟩
        exact ⟨i, hi, m, Nat.le_of_lt hm, hhalts⟩
      · rintro f ⟨⟩
        exact .inr ⟨hcyclic, hstuck⟩
    | crashed hy hs' hkeeps =>
      exact .crashed (hlimit hy) (hs'.put (by simp) (by simp)) (hkeeps.put hslot (by simp))
    | exhausted hs' hkeeps =>
      exact .exhausted (hs'.put (by simp) (by simp)) (hkeeps.put hslot (by simp))
  · -- The field is asked for by its own computation.
    exact .blocked (fun n hn => ⟨id, hslot, n, Nat.le_refl n, r, hr, hn⟩) ⟨rfl, rfl⟩
      (hs.imp fun i hi => hi.mono fun _ => False.elim) (.refl _)
  · rcases hs.failure id f hslot with ⟨hf, hfailed⟩ | ⟨hcyclic, hstuck⟩
    · obtain ⟨g, r', hy, hkind⟩ := hfailed r hr
      exact .failed hy hkind hf hs (.refl _)
    · refine .blocked (fun n hn => ?_) hcyclic (hs.imp fun i hi => hi.mono fun _ => False.elim) (.refl _)
      obtain ⟨i, hi, -⟩ := hstuck n ⟨r, hr, hn⟩
      exact hi.elim
  · obtain ⟨v', r', hy, hr', hgrows, hsame⟩ := hs.value id v hslot r hr
    exact .ok hy hs hr' (.refl _) hgrows hsame

end Flowgraph.Constant
