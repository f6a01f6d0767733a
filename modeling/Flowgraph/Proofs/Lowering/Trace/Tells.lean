import Flowgraph.Proofs.Lowering.Trace.Source

/-! # What control meets

What control meets from a place on is compared with all that an execution has met in
the end, which depends on what it met before. So code can be read backwards: what is told
at a place follows from what is told at the places behind it. Steps are counted, since
control can go around in a loop without meeting anything.
-/

namespace Flowgraph.Lowering.Trace

open Flowgraph.Graph (Code Event)
open Flowgraph.Tree (Expr)

/-- What decides the conditions, and how many turns loops take at most. -/
structure Oracle where
  decide : Nat → Bool
  turns : Nat

/-- Finished code with what is noted in it. -/
structure Finished where
  code : Code
  events : Nat → List Event

/-- All that is met in the end, by what was met before. -/
abbrev Tale := List Event → List Event

/-- From `i` on, control meets what the tale adds: all of it, whatever way it takes, and within
`n` steps no more. -/
structure Tells (o : Oracle) (w : Finished) (n : Nat) (T : Tale) (i : Nat) : Prop where
  most : ∀ {m l met}, m < n → Meets w.code w.events m i l → Follows o.decide (tests met) l →
    met ++ l <+: T met
  all : ∀ met, ∃ l, T met = met ++ l ∧ MustMeet w.code w.events o.decide (tests met) i l

/-! ## Executions that go on -/

/-- What an execution has met in the end if it goes on with `κ`. -/
def Run.goOn {ε : Type} (m : Run ε) (κ : ε → Tale) : Tale := fun met =>
  match m.run.run met with
  | (some x, met') => κ x met'
  | (none, met') => met'

/-- Go on with `T` after a normal end. -/
def onward (T : Tale) (κ : Ending → Tale) : Ending → Tale
  | .normal => T
  | e => κ e

/-- Go on with `T` after a turn of a loop, if there is another one. -/
def afterTurn (T : Tale) (κ : Ending → Tale) : Turn → Tale
  | .again => T
  | .leave => κ .normal
  | .stop e => κ e

section GoOn

variable {ε δ : Type} {ρ : Nat → Bool} {c : Option Expr} {m : Run ε} {f : ε → Run δ}
  {D E : Run Ending} {T : Tale} {κ : Ending → Tale}

theorem goOn_bind (κ : δ → Tale) : (m >>= f).goOn κ = m.goOn fun x => (f x).goOn κ := by
  funext met
  simp only [Run.goOn, OptionT.run_bind, Option.elimM, StateT.run_bind]
  rcases m.run.run met with ⟨_ | _, _⟩ <;> rfl

theorem goOn_andThen : (D.andThen E).goOn κ = D.goOn (onward (E.goOn κ) κ) := by
  unfold Run.andThen
  rw [goOn_bind]
  congr 1
  funext x
  cases x <;> rfl

theorem goOn_loop {turn : Run Turn} (n : Nat) :
    (turn.loop (n + 1)).goOn κ = turn.goOn (afterTurn ((turn.loop n).goOn κ) κ) := by
  rw [Run.loop, goOn_bind]
  congr 1
  funext x
  cases x <;> rfl

theorem goOn_testFirst : (Run.testFirst ρ c D).goOn (afterTurn T κ) =
    (Run.test ρ c).goOn fun b => if b then D.goOn (onward T κ) else κ .normal := by
  unfold Run.testFirst
  rw [goOn_bind]
  congr 1
  funext b
  cases b with
  | false => rfl
  | true =>
    rw [if_pos rfl, if_pos rfl, goOn_bind]
    congr 1
    funext x
    cases x <;> rfl

theorem goOn_testLast : (Run.testLast ρ c D).goOn (afterTurn T κ) =
    D.goOn (onward ((Run.test ρ c).goOn fun b => if b then T else κ .normal) κ) := by
  unfold Run.testLast
  rw [goOn_bind]
  congr 1
  funext x
  cases x with
  | normal =>
    dsimp only
    rw [goOn_bind]
    congr 1
    funext b
    cases b <;> rfl
  | broke | returned => rfl

theorem goOn_outOf {label : Nat} : (do return (← D).outOf label : Run Ending).goOn κ =
    D.goOn fun x => κ (x.outOf label) := goOn_bind κ

end GoOn

/-! ## Rules -/

section Rules

variable {o : Oracle} {w : Finished} {n m i j yes no : Nat} {T : Tale} {c : Expr}
  {ρ : Nat → Bool} {k : Nat} {l l' met : List Event}

theorem tests_append (l l' : List Event) : tests (l ++ l') = tests l + tests l' :=
  List.countP_append

theorem follows_append :
    Follows ρ k (l ++ l') ↔ Follows ρ k l ∧ Follows ρ (k + tests l) l' := by
  induction l generalizing k with
  | nil => simp [Follows, tests]
  | cons e l ih =>
    cases e with
    | test c b =>
      have hcount : k + tests (.test c b :: l) = k + 1 + tests l := by
        simp only [tests, List.countP_cons, isTest, if_true]
        omega
      rw [hcount, List.cons_append, Follows, Follows, ih, and_assoc]
    | _ => simpa [Follows, tests, isTest] using ih

theorem Tells.mono (h : Tells o w n T i) (hm : m ≤ n) : Tells o w m T i :=
  ⟨fun hlt => h.most (hlt.trans_le hm), h.all⟩

theorem Tells.keeps (h : Tells o w n T i) (met : List Event) : met <+: T met := by
  obtain ⟨l, hl, -⟩ := h.all met
  exact ⟨l, hl.symm⟩

theorem tells_zero : Tells o w 0 id i :=
  ⟨nofun, fun met => ⟨[], (List.append_nil met).symm, .here List.nil_prefix⟩⟩

theorem tells_stop (hafter : w.code.after i = []) (hi : w.events i = []) : Tells o w n id i where
  most _ hl _ := by
    cases hl with
    | here hl =>
      rw [hi] at hl
      rw [List.prefix_nil.mp hl, List.append_nil]
      exact List.prefix_rfl
    | step hj => exact nomatch hafter ▸ hj
  all met := ⟨[], (List.append_nil met).symm, .here List.nil_prefix⟩

theorem tells_step (hafter : w.code.after i ≠ [])
    (h : ∀ j ∈ w.code.after i, Tells o w (n - 1) T j) :
    Tells o w n (fun met => T (met ++ w.events i)) i := by
  obtain ⟨j, hj⟩ := List.exists_mem_of_ne_nil _ hafter
  constructor
  · intro m l met hm hl hf
    cases hl with
    | here hl =>
      exact ((List.prefix_append_right_inj met).mpr hl).trans ((h j hj).keeps _)
    | step hj hl =>
      rw [follows_append, ← tests_append] at hf
      rw [← List.append_assoc]
      exact (h _ hj).most (by omega) hl hf.2
  · intro met
    obtain ⟨l, hl, -⟩ := (h j hj).all (met ++ w.events i)
    refine ⟨w.events i ++ l, by rw [hl, List.append_assoc], .step hafter fun j hj _ => ?_⟩
    obtain ⟨l', hl', hmust⟩ := (h j hj).all (met ++ w.events i)
    rw [← tests_append, List.append_cancel_left (hl.symm.trans hl')]
    exact hmust

theorem tells_next (hafter : w.code.after i = [j]) (h : Tells o w (n - 1) T j) :
    Tells o w n (fun met => T (met ++ w.events i)) i := by
  refine tells_step (by simp [hafter]) fun j' hj' => ?_
  rw [hafter] at hj'
  rwa [List.mem_singleton.mp hj']

theorem tells_silent (hi : w.events i = []) (hafter : w.code.after i ≠ [])
    (h : ∀ j ∈ w.code.after i, Tells o w (n - 1) T j) : Tells o w n T i := by
  simpa only [hi, List.append_nil] using tells_step hafter h

theorem eq_cons_of_meets {e : Event} {es : List Event} (hi : w.events i = e :: es)
    (h : Meets w.code w.events m i l) (hl : l ≠ []) : ∃ l', l = e :: l' := by
  cases h with
  | here h =>
    rw [hi] at h
    rcases List.prefix_cons_iff.mp h with rfl | ⟨l', rfl, -⟩
    · exact absurd rfl hl
    · exact ⟨l', rfl⟩
  | step _ _ => exact ⟨_, by rw [hi]; rfl⟩

/-- The oracle decides a condition whose outcomes are noted at the sides of a branch. -/
theorem tells_test {T : Bool → Tale} (hi : w.events i = []) (hafter : w.code.after i = [yes, no])
    (hyes : w.events yes = [.test c true]) (hno : w.events no = [.test c false])
    (h : ∀ b, Tells o w (n - 1) (fun met => T b (met ++ [.test c b])) (if b then yes else no)) :
    Tells o w n ((Run.test o.decide (some c)).goOn T) i := by
  constructor
  · intro m l met hm hl hf
    change met ++ l <+: T (o.decide (tests met)) (met ++ [.test c (o.decide (tests met))])
    by_cases hnil : l = []
    · rw [hnil, List.append_nil]
      exact (h (o.decide (tests met))).keeps met
    cases hl with
    | here hl => exact absurd (List.prefix_nil.mp (hi ▸ hl)) hnil
    | @step m _ j l hj hl =>
      rw [hi, List.nil_append] at hnil hf ⊢
      obtain ⟨b, rfl⟩ : ∃ b : Bool, j = if b then yes else no := by
        rcases List.mem_pair.mp (hafter ▸ hj) with rfl | rfl
        exacts [⟨true, rfl⟩, ⟨false, rfl⟩]
      have hevents : w.events (if b then yes else no) = [.test c b] := by
        cases b
        exacts [hno, hyes]
      obtain ⟨l', rfl⟩ := eq_cons_of_meets hevents hl hnil
      have hb : b = o.decide (tests met) := hf.1
      rw [← hb]
      exact (h b).most (by omega) hl hf
  · intro met
    obtain ⟨l, hl, hmust⟩ := (h (o.decide (tests met))).all met
    have hstep : (∀ j ∈ w.code.after i, Lets w.code w.events o.decide (tests met) i j →
        MustMeet w.code w.events o.decide (tests met) j l) →
        MustMeet w.code w.events o.decide (tests met) i l := by
      have := MustMeet.step (k := w.events) (ρ := o.decide) (q := tests met) (l := l)
        (by simp [hafter] : w.code.after i ≠ [])
      rwa [hi] at this
    refine ⟨l, hl, hstep fun j _ hlets => ?_⟩
    rw [hlets c yes no hafter hyes hno]
    exact hmust

/-- What a loop tells where its turns start. -/
theorem tells_loop {turn : Run Turn} {κ : Ending → Tale} {N : Nat} (hN : n ≤ N)
    (h : ∀ m ≤ n, ∀ T, Tells o w (m - 1) T i → Tells o w m (turn.goOn (afterTurn T κ)) i) :
    Tells o w n ((turn.loop N).goOn κ) i := by
  have hall : ∀ N m, m ≤ N → m ≤ n → Tells o w m ((turn.loop N).goOn κ) i := by
    intro N
    induction N with
    | zero =>
      intro m hm _
      obtain rfl := Nat.le_zero.mp hm
      exact tells_zero
    | succ N ih =>
      intro m hm hn
      rw [goOn_loop]
      exact h m hn _ (ih (m - 1) (by omega) (by omega))
  exact hall N n hN le_rfl

end Rules

end Flowgraph.Lowering.Trace
