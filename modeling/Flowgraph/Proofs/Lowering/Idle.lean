import Flowgraph.Lowering.Attempt
import Flowgraph.Proofs.Lowering.Ends
import Mathlib.Order.Basic

/-! # Steps that make no code

Many steps only look things up, name values or keep count. A relation between states
that such changes keep to is kept by all of them.
-/

namespace Flowgraph.Lowering

open Constant (EvalM Stop)
open Flowgraph.Tree (MemberRef)

/-- The step keeps to a relation between states. -/
class Within {α : Type} (R : State → State → Prop) (m : LowerM α) : Prop where
  ends : ∀ env s, Ends env m s fun _ t => R s t

/-- The relation allows for other places and depths. -/
class Calm (R : State → State → Prop) : Prop where
  refl : ∀ s, R s s
  trans : ∀ {s t u}, R s t → R t u → R s u
  turn : ∀ s place depths, R s { s with place, depths }

/-- The relation allows for other frames, too. -/
class Shifting (R : State → State → Prop) : Prop extends Calm R where
  reframe : ∀ s frame, R s { s with frame }

/-- The relation allows for other names of values, too. -/
class Steady (R : State → State → Prop) : Prop extends Shifting R where
  rename : ∀ {s stack}, stack.map (·.definition) = s.stack.map (·.definition) → R s { s with stack }

/-- The relation allows for values to be taken from the stack. -/
class Popping (R : State → State → Prop) : Prop where
  take : ∀ s stack pendingArguments, R s { s with stack, pendingArguments }

/-- The relation allows for constants and closures to be made. -/
class Carefree (R : State → State → Prop) : Prop where
  make : ∀ s store closures, R s { s with store, closures }

section Calm

variable {α β : Type} {R : State → State → Prop} [hR : Calm R]

instance (a : α) : Within R (pure a : LowerM α) := ⟨fun _ s => ends_pure.mpr (hR.refl s)⟩

instance : Within R (get : LowerM State) := ⟨fun _ s => ends_get.mpr (hR.refl s)⟩

instance : Within R (read : LowerM Env) := ⟨fun _ s => ends_read.mpr (hR.refl s)⟩

instance (e : Stop) : Within R (throw e : LowerM α) := ⟨fun _ _ => ends_throw⟩

instance (m : LowerM α) (k : α → LowerM β) [hm : Within R m] [hk : ∀ a, Within R (k a)] :
    Within R (m >>= k) :=
  ⟨fun env s => (hm.ends env s).bind fun a t h => ((hk a).ends env t).mono fun _ _ => hR.trans h⟩

instance (c : Prop) [Decidable c] (m n : LowerM α) [hm : Within R m] [hn : Within R n] :
    Within R (if c then m else n) := by
  split
  · exact hm
  · exact hn

instance (place : Position) (message : String) : Within R (malformed place message : LowerM α) :=
  ⟨fun _ _ => ends_malformed⟩

instance (message : String) : Within R (inconsistent message : LowerM α) :=
  ⟨fun _ _ => ends_inconsistent⟩

instance (a : Option α) : Within R (required a) := by
  cases a
  · exact inferInstanceAs (Within R (throw _))
  · exact inferInstanceAs (Within R (pure _))

omit hR in
theorem within_modify {f : State → State} (h : ∀ s, R s (f s)) :
    Within R (modify f : LowerM PUnit) := ⟨fun _ s => ends_modify.mpr (h s)⟩

instance (place : Position) : Within R (modify fun s : State => { s with place } : LowerM PUnit) :=
  within_modify fun s => hR.turn s place s.depths

instance (f : Depths → Depths) : Within R (changeDepths f) :=
  within_modify fun s => hR.turn s s.place (f s.depths)

instance : Within R table := inferInstanceAs (Within R (get >>= _))

instance : Within R currentTry := inferInstanceAs (Within R (get >>= _))

/-! ## Variables, frames and members -/

instance (place : Position) (ref : Tree.Ref) : Within R (lookupVariable place ref) := by
  refine ⟨fun env s => ?_⟩
  unfold lookupVariable
  rw [ends_bind, ends_read]
  dsimp only
  split
  · exact ends_pure.mpr (hR.refl s)
  · exact ends_malformed

instance (v : Nat) : Within R (helperVariable v) := inferInstanceAs (Within R (read >>= _))

instance (vars : Scoping.Layout → List Nat) (depth : Nat) : Within R (helperAt vars depth) :=
  inferInstanceAs (Within R
    (read >>= fun e : Env => required (vars e.layout)[depth]? >>= helperVariable))

instance : Within R frameVariable :=
  inferInstanceAs (Within R (read >>= fun e : Env => helperVariable e.layout.currentContext))

instance (node : Nat) : Within R (framedScope node) := inferInstanceAs (Within R (read >>= _))

instance : Within R expressionTemp :=
  inferInstanceAs (Within R (read >>= fun e : Env => helperVariable e.layout.expressionTemp))

instance (target : MemberRef) : Within R (instanceField target) :=
  inferInstanceAs (Within R (table >>= _))

instance (place : Position) (function : Nat) (args : Tree.Arguments) :
    Within R (checkArguments place function args) := by
  have (f : Symbols.FunctionInfo) :
      Within R (match args.names.find? fun name => !f.named.contains name with
      | some name => malformed place (f.qualified ++ " has no parameter named '" ++ name ++ "'")
      | none => (pure () : LowerM Unit)) := by
    split <;> infer_instance
  unfold checkArguments
  infer_instance

instance : Within R usesFrames := inferInstanceAs (Within R (read >>= _))

instance : Within R savedFrame :=
  inferInstanceAs (Within R (get >>= fun s : State => helperAt (·.catchContexts) s.depths.attempt))

instance (fs : Finalizers) : Within R (landing fs) := by
  unfold landing
  infer_instance

/-! ## Values and constants -/

section Popping

variable [hP : Popping R]

omit hR in
instance : Within R pop := by
  refine ⟨fun env s => ?_⟩
  unfold pop
  rw [ends_bind, ends_get]
  split
  · exact ends_inconsistent
  · rename_i top stack hs
    rw [ends_bind, ends_modify, ends_pure]
    exact hP.take s stack s.pendingArguments

instance : Within R popUse := inferInstanceAs (Within R (pop >>= _))

omit hR in
theorem within_pending (f : Nat → Nat) :
    Within R (modify fun s : State => { s with pendingArguments := f s.pendingArguments } :
      LowerM PUnit) := within_modify fun s => hP.take s s.stack (f s.pendingArguments)

instance (n : Nat) (args : List Graph.Use) : Within R (popArguments n args) := by
  induction n generalizing args with
  | zero => exact inferInstanceAs (Within R (pure _))
  | succ n ih =>
    have (top : StackValue) (s : State) : Within R (match s.code.op top.definition with
        | .pushArgument _ => popArguments n (some top.definition :: args)
        | _ => inconsistent ("call argument " ++ toString n ++ " was not pushed")) := by
      split <;> infer_instance
    unfold popArguments
    infer_instance

instance (n : Nat) : Within R (takeArguments n) := by
  have := within_pending (R := R) (· - n)
  unfold takeArguments
  infer_instance

end Popping

section Carefree

variable [hC : Carefree R]

omit hR in
instance (m : EvalM α) : Within R (evaluating m) :=
  ⟨fun _ s => ends_evaluating fun _ store => hC.make s store s.closures⟩

omit hR in
instance (q : Symbols.Table → Except Failure α) : Within R (query q) :=
  inferInstanceAs (Within R (evaluating _))

omit hR in
instance (make : Symbols.Table → Nat × Symbols.Table) : Within R (addClosure make) := by
  refine ⟨fun env s => ?_⟩
  unfold addClosure
  rw [ends_bind, ends_get, ends_bind, ends_set, ends_pure]
  exact hC.make s _ _

end Carefree

end Calm

section Steady

variable {R : State → State → Prop}

instance [hS : Shifting R] (level : Int) : Within R (setFrame level) :=
  within_modify fun s => hS.reframe s level

instance [hS : Steady R] : Within R makeTemporary := by
  refine ⟨fun env s => ?_⟩
  unfold makeTemporary
  rw [ends_bind, ends_get]
  split
  · exact ends_inconsistent
  · rename_i top stack hs
    rw [ends_bind, ends_modify, ends_pure]
    exact hS.rename (by simp [hs])

end Steady

/-! ## Idle steps -/

/-- The states differ in nothing that the shape of the code depends on. -/
structure Same (s s' : State) : Prop where
  code : s'.code = s.code
  nextTry : s'.nextTry = s.nextTry
  handlers : s'.handlers = s.handlers
  tries : s'.tries = s.tries
  caught : s'.caught = s.caught
  breakables : s'.breakables = s.breakables
  switches : s'.switches = s.switches

section Same

variable {s s' s'' : State}

theorem Same.refl (s : State) : Same s s := ⟨rfl, rfl, rfl, rfl, rfl, rfl, rfl⟩

theorem Same.trans (h : Same s s') (g : Same s' s'') : Same s s'' :=
  ⟨g.1.trans h.1, g.2.trans h.2, g.3.trans h.3, g.4.trans h.4, g.5.trans h.5, g.6.trans h.6,
    g.7.trans h.7⟩

end Same

/-- Nothing that the shape of the code depends on was touched, and nothing noted. -/
def Unmoved (s t : State) : Prop := Same s t ∧ t.sources = s.sources

instance : Steady Unmoved where
  refl s := ⟨.refl s, rfl⟩
  trans h g := ⟨h.1.trans g.1, g.2.trans h.2⟩
  turn _ _ _ := ⟨⟨rfl, rfl, rfl, rfl, rfl, rfl, rfl⟩, rfl⟩
  reframe _ _ := ⟨⟨rfl, rfl, rfl, rfl, rfl, rfl, rfl⟩, rfl⟩
  rename _ := ⟨⟨rfl, rfl, rfl, rfl, rfl, rfl, rfl⟩, rfl⟩

instance : Popping Unmoved := ⟨fun _ _ _ => ⟨⟨rfl, rfl, rfl, rfl, rfl, rfl, rfl⟩, rfl⟩⟩

instance : Carefree Unmoved := ⟨fun _ _ _ => ⟨⟨rfl, rfl, rfl, rfl, rfl, rfl, rfl⟩, rfl⟩⟩

/-- The step touches nothing that the shape of the code depends on. -/
abbrev Idle {α : Type} (m : LowerM α) : Prop := Within Unmoved m

section Idle

variable {α : Type} {env : Env} {s : State}

theorem Idle.ends {m : LowerM α} [Idle m] (env : Env) (s : State) :
    Ends env m s fun _ t => Same s t ∧ t.sources = s.sources := Within.ends (R := Unmoved) env s

theorem ends_landing {fs : Finalizers} {Q : Landing → State → Prop} :
    Ends env (landing fs) s Q ↔ Q ⟨fs.innermost, s.frame, s.tries.headD Graph.noTry⟩ s := by
  unfold landing currentTry
  rw [ends_bind, ends_get, ends_bind, ends_bind, ends_get, ends_pure, ends_pure]

end Idle

end Flowgraph.Lowering
