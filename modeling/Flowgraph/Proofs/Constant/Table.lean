import Flowgraph.Proofs.Constant.History
import Flowgraph.Scoping.Defaults

/-! # Evaluation and the table

Evaluation fills the pool and the slots of fields. However it ends, the table of the
program stays as it was.
-/

namespace Flowgraph.Constant

open Symbols (Table)

/-- However the evaluation ends, the table stays as it was. -/
class KeepsTable {α : Type} (m : EvalM α) : Prop where
  table : ∀ s, (evalFrom m s).2.table = s.table

section Rules

variable {α β ι : Type}

instance (a : α) : KeepsTable (pure a) := ⟨fun _ => rfl⟩

instance (stop : Stop) : KeepsTable (throw stop : EvalM α) := ⟨fun _ => rfl⟩

instance : KeepsTable (get : EvalM Store) := ⟨fun _ => rfl⟩

instance (make : Nat → Value) : KeepsTable (intern make) := ⟨fun _ => rfl⟩

instance (m : EvalM α) (k : α → EvalM β) [hm : KeepsTable m] [hk : ∀ a, KeepsTable (k a)] :
    KeepsTable (m >>= k) := by
  refine ⟨fun s => ?_⟩
  have h := hm.table s
  rw [evalFrom_bind]
  split
  · rename_i a s' hrun
    rw [hrun] at h
    exact ((hk a).table s').trans h
  · rename_i hrun
    rw [hrun] at h
    exact h

theorem KeepsTable.bind {m : EvalM α} {k : α → EvalM β} [KeepsTable m]
    (hk : ∀ a, KeepsTable (k a)) : KeepsTable (m >>= k) := inferInstance

instance (c : Prop) [Decidable c] (m n : EvalM α) [hm : KeepsTable m] [hn : KeepsTable n] :
    KeepsTable (if c then m else n) := by
  split
  · exact hm
  · exact hn

theorem KeepsTable.guarded {c : Prop} [Decidable c] {m : EvalM β} {n : EvalM α} [KeepsTable m]
    (hn : KeepsTable n) : KeepsTable (if c then m >>= fun _ => n else n) := inferInstance

instance (q : Table → Except Failure α) : KeepsTable (query q) := by
  have (s : Store) : KeepsTable (match q s.table with
      | .ok a => pure a
      | .error f => throw (.failed f) : EvalM α) := by
    split <;> infer_instance
  unfold query
  infer_instance

instance (kind : FailureKind) (place : Position) (message : String) :
    KeepsTable (fail kind place message : EvalM α) := inferInstanceAs (KeepsTable (throw _))

instance (place : Position) (message : String) :
    KeepsTable (notConstant place message : EvalM α) := inferInstanceAs (KeepsTable (throw _))

instance (place : Position) (message : String) :
    KeepsTable (invalidConstructor place message : EvalM α) := inferInstanceAs (KeepsTable (throw _))

instance (r : Result) : KeepsTable r.intern := by
  unfold Result.intern
  split <;> infer_instance

instance (f : ι → EvalM α) [∀ i, KeepsTable (f i)] (l : List ι) : KeepsTable (l.mapM f) := by
  induction l with
  | nil => rw [List.mapM_nil]; infer_instance
  | cons i l ih => rw [List.mapM_cons]; infer_instance

theorem KeepsTable.foldlM {f : α → ι → EvalM α} (hf : ∀ a i, KeepsTable (f a i)) {l : List ι} {a : α} :
    KeepsTable (l.foldlM f a) := by
  induction l generalizing a with
  | nil => rw [List.foldlM_nil]; infer_instance
  | cons i l ih => rw [List.foldlM_cons]; infer_instance

instance (f : α → ι → EvalM α) [∀ a i, KeepsTable (f a i)] (l : List ι) (a : α) :
    KeepsTable (l.foldlM f a) := .foldlM inferInstance

instance (id : Nat) (compute : EvalM Value) [h : KeepsTable compute] :
    KeepsTable (memoizeField id compute) := by
  refine ⟨fun s => ?_⟩
  have h := h.table (s.put id .computing)
  rw [evalFrom_memoizeField]
  rcases s.slots.slot id with _ | _ | (_ | _)
  · dsimp only
    split <;> rename_i hrun <;> rw [hrun] at h <;> exact h
  all_goals rfl

instance (place : Position) (receiver : Value) (name : String) (args : List Value) :
    KeepsTable (dispatch place receiver name args) := by
  unfold dispatch
  dsimp only
  repeat' split
  all_goals infer_instance

instance (ofDefault : Tree.Expr → EvalM Value) [∀ e, KeepsTable (ofDefault e)]
    (argument : Option Value) (param : Tree.Declaration) :
    KeepsTable (bindParameter ofDefault argument param) := by
  unfold bindParameter
  split <;> infer_instance

theorem keeps_initialize {eval : Tree.Expr → EvalM Value} (f : Symbols.FieldInfo) (fields : Receiver)
    (h : ∀ e, KeepsTable (eval e)) : KeepsTable (match f.isStatic, f.initializer with
      | false, some e => do return fields.set f.offset (some (← eval e))
      | _, _ => return fields) := by
  split <;> infer_instance

theorem keeps_orNull (v : Option Value) : KeepsTable (match v with
    | some v => pure v
    | none => intern .null) := by
  split <;> infer_instance

theorem keeps_identical {m : EvalM (List Value)} (place : Position) [KeepsTable m] : KeepsTable (do
    match ← m with
    | [a, b] => (Result.bool (a.id = b.id)).intern
    | _ => notConstant place "identical expects 2 arguments") := by
  refine .bind fun vs => ?_
  split <;> infer_instance

end Rules

/-- All parts of evaluation at one depth. -/
structure KeepsTables (ask : Nat → EvalM Value) (d : Nat) : Prop where
  expr : ∀ env e, KeepsTable (evaluate ask d env e)
  bool : ∀ env e, KeepsTable (evaluateBool ask d env e)
  text : ∀ env e, KeepsTable (evaluateText ask d env e)
  entry : ∀ env entries e, KeepsTable (evaluateEntry ask d env entries e)
  positional : ∀ env place args, KeepsTable (evaluatePositional ask d env place args)
  arguments : ∀ env args, KeepsTable (evaluateArguments ask d env args)
  parameters : ∀ place id f actuals, KeepsTable (bindParameters ask d place id f actuals)
  constructor : ∀ place id fields actuals, KeepsTable (runConstructor ask d place id fields actuals)
  initializer : ∀ env className fields init,
    KeepsTable (runInitializer ask d env className fields init)

namespace KeepsTables

variable {ask : Nat → EvalM Value} {d : Nat}

theorem zero : KeepsTables ask 0 := by
  constructor <;> intros <;> exact inferInstanceAs (KeepsTable (throw _))

theorem expr_succ [∀ id, KeepsTable (ask id)] (h : KeepsTables ask d) (env : Env) (e : Tree.Expr) :
    KeepsTable (evaluate ask (d + 1) env e) := by
  have := h.expr
  have := h.bool
  have := h.text
  have := h.entry
  have := h.positional
  have := h.arguments
  have := h.constructor
  have := keeps_orNull
  cases e with
  | get place var =>
    simp only [evaluate]
    split
    · infer_instance
    · refine .bind fun s => ?_
      split <;> infer_instance
  | staticGet place target =>
    simp only [evaluate]
    refine .bind fun s => ?_
    split <;> infer_instance
  | propertyGet place receiver name =>
    simp only [evaluate]
    refine .bind fun v => ?_
    split <;> infer_instance
  | staticCall place target args isConst =>
    have := keeps_identical (m := evaluatePositional ask d env place args) place
    simp only [evaluate]
    infer_instance
  | logical place op left right =>
    simp only [evaluate]
    split <;> infer_instance
  | _ =>
    simp only [evaluate]
    infer_instance

theorem succ [∀ id, KeepsTable (ask id)] (h : KeepsTables ask d) : KeepsTables ask (d + 1) := by
  have := h.expr
  have := h.arguments
  have := h.parameters
  have := h.constructor
  have := h.initializer
  constructor
  case expr => exact h.expr_succ
  case bool =>
    intro env e
    simp only [evaluateBool]
    refine .bind fun v => ?_
    split <;> infer_instance
  case text =>
    intro env e
    simp only [evaluateText]
    refine .bind fun v => ?_
    split <;> infer_instance
  case entry | positional | arguments | parameters =>
    intros
    simp only [evaluateEntry, evaluatePositional, evaluateArguments, bindParameters]
    infer_instance
  case constructor =>
    intro place id fields actuals
    simp only [runConstructor]
    refine .bind fun s => .guarded ?_
    cases (s.table.function id).constructor? with
    | none => exact .guarded inferInstance
    | some decl =>
      refine .guarded (.bind fun env => ?_)
      have hown (fields : Receiver) (f : Nat) := keeps_initialize (s.table.field f) fields (h.expr [])
      refine @KeepsTable.bind _ _ _ _ (.foldlM hown) fun fields => ?_
      cases (s.table.class? ((s.table.function id).owner.getD "")).bind (·.super) <;> infer_instance
  case initializer =>
    intro env className fields init
    cases init <;> simp only [runInitializer] <;> infer_instance

theorem all [∀ id, KeepsTable (ask id)] : ∀ d, KeepsTables ask d
  | 0 => zero
  | d + 1 => (all d).succ

end KeepsTables

instance (ask : Nat → EvalM Value) [∀ id, KeepsTable (ask id)] (d : Nat) (env : Env) (e : Tree.Expr) :
    KeepsTable (evaluate ask d env e) := (KeepsTables.all d).expr env e

instance (d id : Nat) : KeepsTable (evaluateField d id) := by
  induction d generalizing id with
  | zero => exact inferInstanceAs (KeepsTable (throw _))
  | succ d ih =>
    have : KeepsTable (fieldCode (evaluateField d) d id) := by
      unfold fieldCode
      refine .bind fun s => ?_
      dsimp only
      split <;> infer_instance
    exact inferInstanceAs (KeepsTable (memoizeField id _))

instance (e : Tree.Expr) : KeepsTable (fold e) :=
  inferInstanceAs (KeepsTable (evaluate (evaluateField maxDepth) maxDepth [] e))

/-- The defaults of parameters are folded without a change to the table. -/
instance (o : Scoping.Outcome) : KeepsTable o.withDefaults := by
  have (r : Scoping.DefaultRequest) : KeepsTable r.fold := by
    unfold Scoping.DefaultRequest.fold
    split <;> infer_instance
  unfold Scoping.Outcome.withDefaults
  refine .bind fun values => ?_
  split <;> infer_instance

end Flowgraph.Constant
