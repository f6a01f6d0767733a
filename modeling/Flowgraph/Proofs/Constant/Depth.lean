import Flowgraph.Constant.Evaluate
import Flowgraph.Proofs.Constant.Pool

/-! # Evaluation with more and more depth

What a constant field means does not mention memoization: its initializer is evaluated,
and so are those of the fields that it asks for. With a bounded depth this ends, and
either the result is the same from some depth on or no depth is enough.
-/

namespace Flowgraph.Constant

open Symbols (Table)

variable {α β : Type}

/-- What a computation gives and the store it leaves. -/
def evalFrom (m : EvalM α) (s : Store) : Except Stop α × Store := m.run.run s

theorem evalFrom_bind (m : EvalM α) (k : α → EvalM β) (s : Store) :
    evalFrom (m >>= k) s = match evalFrom m s with
      | (.ok a, r) => evalFrom (k a) r
      | (.error stop, r) => (.error stop, r) := by
  change (ExceptT.bindCont k (m s).1) (m s).2 = match m s with
    | (.ok a, r) => k a r
    | (.error stop, r) => (.error stop, r)
  rcases m s with ⟨_ | _, _⟩ <;> rfl

@[simp] theorem evalFrom_get (s : Store) : evalFrom (get : EvalM Store) s = (.ok s, s) := rfl

/-- The value of a field without memoization. -/
def unfoldField : Nat → Nat → EvalM Value
  | 0, _ => throw .exhausted
  | n + 1, id => fieldCode (unfoldField n) n id

/-! ## Limits -/

/-- From some depth on the computation ends with `r`, and with no depth otherwise. -/
structure Tends (y : Nat → EvalM β) (s : Store) (r : Except Stop β × Store) : Prop where
  reaches : ∃ N, ∀ n ≥ N, evalFrom (y n) s = r
  unique : ∀ n, (evalFrom (y n) s).1 = .error .exhausted ∨ evalFrom (y n) s = r

namespace Tends

variable {y : Nat → EvalM β} {s : Store} {r r' : Except Stop β × Store}

theorem eq (h : Tends y s r) (h' : Tends y s r') : r = r' := by
  obtain ⟨N, hN⟩ := h.reaches
  obtain ⟨M, hM⟩ := h'.reaches
  rw [← hN (max N M) (by omega), ← hM (max N M) (by omega)]

theorem const {m : EvalM β} : Tends (fun _ => m) s (evalFrom m s) :=
  ⟨⟨0, fun _ _ => rfl⟩, fun _ => .inr rfl⟩

theorem congr {z : Nat → EvalM β} (h : Tends y s r)
    (hz : ∀ n, evalFrom (z n) s = evalFrom (y n) s) : Tends z s r := by
  constructor
  · simpa only [hz] using h.reaches
  · simpa only [hz] using h.unique

theorem bind {γ : Type} {k : Nat → β → EvalM γ} {b : β} {t : Store} {q : Except Stop γ × Store}
    (h : Tends y s (.ok b, t)) (hk : Tends (fun n => k n b) t q) :
    Tends (fun n => y n >>= k n) s q := by
  constructor
  · obtain ⟨N, hN⟩ := h.reaches
    obtain ⟨M, hM⟩ := hk.reaches
    refine ⟨max N M, fun n hn => ?_⟩
    rw [evalFrom_bind, hN n (by omega)]
    exact hM n (by omega)
  · intro n
    rw [evalFrom_bind]
    rcases h.unique n with hn | hn
    · rcases hy : evalFrom (y n) s with ⟨_ | _, _⟩ <;> simp_all
    · rw [hn]
      exact hk.unique n

theorem bind_error {γ : Type} {k : Nat → β → EvalM γ} {stop : Stop} {t : Store}
    (h : Tends y s (.error stop, t)) : Tends (fun n => y n >>= k n) s (.error stop, t) := by
  constructor
  · obtain ⟨N, hN⟩ := h.reaches
    refine ⟨N, fun n hn => ?_⟩
    rw [evalFrom_bind, hN n hn]
  · intro n
    rw [evalFrom_bind]
    rcases h.unique n with hn | hn
    · rcases hy : evalFrom (y n) s with ⟨_ | _, _⟩ <;> simp_all
    · rw [hn]
      exact .inr rfl

theorem later {z : Nat → EvalM β} {k : Nat} (h : Tends y s r)
    (hlow : ∀ n ≤ k, z n = throw .exhausted) (hhigh : ∀ n > k, z n = y n) : Tends z s r := by
  constructor
  · obtain ⟨N, hN⟩ := h.reaches
    refine ⟨max N (k + 1), fun n hn => ?_⟩
    rw [hhigh n (by omega)]
    exact hN n (by omega)
  · intro n
    rcases Nat.lt_or_ge k n with hn | hn
    · rw [hhigh n hn]
      exact h.unique n
    · rw [hlow n hn]
      exact .inl rfl

theorem succ {z : Nat → EvalM β} (h : Tends y s r) (hzero : z 0 = throw .exhausted)
    (hsucc : ∀ n, z (n + 1) = y n) : Tends z s r := by
  constructor
  · obtain ⟨N, hN⟩ := h.reaches
    refine ⟨N + 1, fun n hn => ?_⟩
    obtain ⟨m, rfl⟩ : ∃ m, n = m + 1 := ⟨n - 1, by omega⟩
    rw [hsucc]
    exact hN m (by omega)
  · intro n
    cases n with
    | zero =>
      rw [hzero]
      exact .inl rfl
    | succ m =>
      rw [hsucc]
      exact h.unique m

end Tends

end Flowgraph.Constant
