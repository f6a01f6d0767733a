import Flowgraph.Lowering.State
import Flowgraph.Proofs.Graph.Code

/-! # How lowering ends

A lowering step is described by what holds when it ends normally. The rules follow
the way steps are put together.
-/

namespace Flowgraph.Lowering

open Constant (Stop EvalM)

variable {α β : Type} {env : Env} {s : State}

/-- What a step gives and the state it leaves. -/
def runFrom (env : Env) (m : LowerM α) (s : State) : Except Stop α × State := (m.run env).run s

/-- If a step ends normally, `Q` holds of what it gives and of the state it leaves. -/
def Ends (env : Env) (m : LowerM α) (s : State) (Q : α → State → Prop) : Prop :=
  match runFrom env m s with
  | (.ok a, t) => Q a t
  | (.error _, _) => True

variable {Q : α → State → Prop}

variable {m : LowerM α} {k : α → LowerM β} {op : Graph.Op} {origin : Option Graph.Origin}
  {message : String}

theorem Ends.run {a : α} {t : State} (h : Ends env m s Q)
    (hr : runFrom env m s = (.ok a, t)) : Q a t := by
  unfold Ends at h
  rwa [hr] at h

theorem Ends.mono {Q' : α → State → Prop} (h : Ends env m s Q)
    (hQ : ∀ a t, Q a t → Q' a t) : Ends env m s Q' := by
  unfold Ends at *
  split at h
  · exact hQ _ _ h
  · trivial

theorem Ends.ran (h : Ends env m s Q) :
    Ends env m s fun a t => Q a t ∧ runFrom env m s = (.ok a, t) := by
  unfold Ends at *
  split <;> simp_all

theorem ends_of_forall (h : ∀ a t, Q a t) : Ends env m s Q := by
  unfold Ends
  split
  · exact h _ _
  · trivial

theorem Ends.and {Q' : α → State → Prop} (h : Ends env m s Q)
    (h' : Ends env m s Q') : Ends env m s fun a t => Q a t ∧ Q' a t := by
  unfold Ends at *
  split <;> simp_all

theorem runFrom_bind (m : LowerM α) (k : α → LowerM β) :
    runFrom env (m >>= k) s = match runFrom env m s with
      | (.ok a, t) => runFrom env (k a) t
      | (.error stop, t) => (.error stop, t) := by
  change (ExceptT.bind (m.run env) fun a => (k a).run env) s = _
  change (ExceptT.bindCont (fun a => (k a).run env) ((m.run env) s).1) ((m.run env) s).2 = _
  change _ = match (m.run env) s with
      | (.ok a, t) => ((k a).run env) t
      | (.error stop, t) => (.error stop, t)
  rcases (m.run env) s with ⟨_ | _, _⟩ <;> rfl

theorem ends_bind {Q : β → State → Prop} :
    Ends env (m >>= k) s Q ↔ Ends env m s (fun a t => Ends env (k a) t Q) := by
  unfold Ends
  rw [runFrom_bind]
  rcases runFrom env m s with ⟨_ | _, _⟩ <;> rfl

@[simp] theorem ends_pure {a : α} : Ends env (pure a) s Q ↔ Q a s := Iff.rfl

@[simp] theorem ends_throw {e : Stop} : Ends env (throw e : LowerM α) s Q := trivial

@[simp] theorem ends_get {Q : State → State → Prop} :
    Ends env (get : LowerM State) s Q ↔ Q s s := Iff.rfl

@[simp] theorem ends_read {Q : Env → State → Prop} :
    Ends env (read : LowerM Env) s Q ↔ Q env s := Iff.rfl

@[simp] theorem ends_set {t : State} {Q : PUnit → State → Prop} :
    Ends env (set t : LowerM PUnit) s Q ↔ Q ⟨⟩ t := Iff.rfl

@[simp] theorem ends_modify {f : State → State} {Q : PUnit → State → Prop} :
    Ends env (modify f : LowerM PUnit) s Q ↔ Q ⟨⟩ (f s) := Iff.rfl

@[simp] theorem ends_modifyGet {f : State → α × State} :
    Ends env (modifyGet f : LowerM α) s Q ↔ Q (f s).1 (f s).2 := Iff.rfl

@[simp] theorem ends_withReader {f : Env → Env} :
    Ends env (withReader f m) s Q ↔ Ends (f env) m s Q := Iff.rfl

theorem Ends.bind {Q : β → State → Prop} {M : α → State → Prop} (h : Ends env m s M)
    (hk : ∀ a t, M a t → Ends env (k a) t Q) : Ends env (m >>= k) s Q :=
  ends_bind.mpr (h.mono hk)

theorem Ends.join {c : Prop} [Decidable c] {m' : LowerM α}
    {Q : β → State → Prop} {M : α → State → Prop} (h : c → Ends env m s M)
    (h' : ¬c → Ends env m' s M) (hk : ∀ a t, M a t → Ends env (k a) t Q) :
    Ends env (if c then m >>= k else m' >>= k) s Q := by
  split
  · exact (h ‹c›).bind hk
  · exact (h' ‹¬c›).bind hk

theorem ends_evaluating {m : EvalM α} (h : ∀ a store, Q a { s with store }) :
    Ends env (evaluating m) s Q := by
  unfold evaluating
  rw [ends_bind, ends_get]
  rcases ExceptT.run m s.store with ⟨_ | a, store⟩
  · exact trivial
  · exact h a store

theorem runFrom_query {q : Symbols.Table → Except Failure α} {f : Failure}
    (h : q s.store.table = .error f) : runFrom env (query q) s = (.error (.failed f), s) := by
  have hstep (x : Except Failure α) (hx : x = .error f) :
      (Constant.query fun _ => x).run s.store = (.error (.failed f), s.store) := by
    rw [hx]
    rfl
  have hrun : (Constant.query q).run s.store = (.error (.failed f), s.store) := hstep _ h
  unfold query evaluating
  rw [runFrom_bind]
  change runFrom env _ s = _
  rw [hrun]
  rfl

/-- Work that stops for certain tables can be said to stop for them at once. -/
theorem table_bind {k : Symbols.Table → LowerM α} {c : Symbols.Table → Prop} [DecidablePred c]
    {f : Symbols.Table → Failure} (h : ∀ env s, c s.store.table →
      runFrom env (k s.store.table) s = (.error (.failed (f s.store.table)), s)) :
    table >>= k = table >>= fun t => if c t then throw (.failed (f t)) else k t := by
  funext env s
  change runFrom env (k s.store.table) s =
    runFrom env (if c s.store.table then throw (.failed (f s.store.table)) else k s.store.table) s
  split
  · exact h env s ‹_›
  · rfl

theorem ends_append {f g : Graph.Fragment} {Q : Graph.Fragment → State → Prop} :
    Ends env (append f g) s Q ↔
      Q (f.append g s.code).1 { s with code := (f.append g s.code).2 } := Iff.rfl

theorem ends_emit {Q : Nat → State → Prop} : Ends env (emit op origin) s Q ↔
      Q s.code.size { s with code := s.code.push { op, origin, within := env.within } } := Iff.rfl

theorem ends_define {Q : Graph.Fragment → State → Prop} :
    Ends env (define op origin) s Q ↔ Q (.single s.code.size)
      { s with code := s.code.push { op, origin, within := env.within, temp := s.nextTemp }
               nextTemp := s.nextTemp + 1, stack := ⟨s.code.size, none⟩ :: s.stack } := by
  unfold define
  rw [ends_bind, ends_emit, ends_bind]
  unfold push
  rw [ends_modify, ends_pure, Graph.Code.setTemp_push]

theorem ends_perform {Q : Graph.Fragment → State → Prop} :
    Ends env (perform op origin) s Q ↔ Q (.single s.code.size)
      { s with code := s.code.push { op, origin, within := env.within } } := by
  unfold perform
  rw [ends_bind, ends_emit, ends_pure]

theorem ends_emitBlock {kind : Graph.BlockKind} {t : Int} {Q : Nat → State → Prop} :
    Ends env (emitBlock kind t) s Q ↔ Q s.code.size
      { s with
        code := s.code.push
          { op := .entry { kind, block := s.nextBlock, tryIndex := t }, within := env.within }
        nextBlock := s.nextBlock + 1 } := by
  unfold emitBlock
  rw [ends_bind, ends_get, ends_bind, ends_modify, ends_emit]

@[simp] theorem ends_failAt {kind : FailureKind} {place : Position} :
    Ends env (failAt kind place message) s Q := trivial

@[simp] theorem ends_malformed {place : Position} :
    Ends env (malformed place message) s Q := trivial

@[simp] theorem ends_inconsistent : Ends env (inconsistent message) s Q := trivial

-- Steps are taken apart by the rules above only.
attribute [irreducible] Ends

end Flowgraph.Lowering
