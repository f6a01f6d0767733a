import Flowgraph.Proofs.Lowering.Discipline
import Flowgraph.Proofs.Lowering.Straight

/-! # Steps that make code

Code that leaves more values on the stack than it takes cannot be empty. So every
expression makes some code, and every declaration does, as it stores a value. There is a
place for what is noted about them.
-/

namespace Flowgraph.Lowering

open Flowgraph.Graph (Fragment)
open Flowgraph.Tree (Expr)

/-- What the step gives is not empty. -/
structure Fills (m : LowerM Fragment) : Prop where
  ends : ∀ env s, Ends env m s fun f _ => f.isEmpty = false

section Fills

variable {α : Type} {m m' : LowerM Fragment} {k : Fragment → LowerM Fragment}
  {c c' : LowerM (Fragment × Bool)}

theorem Fills.after {r : LowerM α} {k : α → LowerM Fragment} (h : ∀ a, Fills (k a)) :
    Fills (r >>= k) :=
  ⟨fun env _ => ends_bind.mpr (ends_of_forall fun a t => (h a).ends env t)⟩

theorem Fills.bind (h : Fills m) (hk : ∀ f, f.isEmpty = false → Fills (k f)) : Fills (m >>= k) :=
  ⟨fun env s => (h.ends env s).bind fun f t hf => (hk f hf).ends env t⟩

theorem fills_define {op : Graph.Op} {origin : Option Graph.Origin} : Fills (define op origin) :=
  ⟨fun _ _ => ends_define.mpr rfl⟩

theorem fills_append {f g : Fragment} (h : f.isEmpty = false ∨ g.isEmpty = false) :
    Fills (append f g) := by
  refine ⟨fun env s => ends_append.mpr ?_⟩
  cases hf : f.isEmpty with
  | false => exact append_isEmpty hf
  | true =>
    obtain ⟨_ | e, _⟩ := f
    · exact h.resolve_left (by simp [hf])
    · cases hf

/-- All states are related. -/
def Any (_ _ : State) : Prop := True

instance : Steady Any where
  refl _ := trivial
  trans _ _ := trivial
  turn _ _ _ := trivial
  reframe _ _ := trivial
  rename _ := trivial

instance : Carefree Any := ⟨fun _ _ _ => trivial⟩

/-- What leaves more values than it takes is not empty. -/
def filling : Calculus Any where
  Makes m p q := p < q → Fills m
  Continues k p q := ∀ f : Fragment, f.isEmpty = false ∨ p < q → Fills (k f)
  Closes := True
  throws := true
  empty h := absurd h (Nat.lt_irrefl 0)
  stop h _ := ⟨fun env s => h env s _⟩
  bind {m k p q p' q'} hm hk h := by
    by_cases hpq : p < q
    · exact (hm hpq).bind fun f hf => hk f (.inl hf)
    · exact .after fun f => hk f (.inr (by omega))
  passive hk h := .after fun a => hk a h
  pure _ h := ⟨fun _ _ => ends_pure.mpr (h.resolve_right (Nat.lt_irrefl 0))⟩
  trans {k k' p q p' q'} hk hk' f h := by
    by_cases hpq : f.isEmpty = false ∨ p < q
    · exact (hk f hpq).bind fun g hg => hk' g (.inl hg)
    · exact .after fun g => hk' g (.inr (by grind))
  append hm _ h := h.elim (fun hf => .after fun _ => fills_append (.inl hf))
    fun hpq => (hm hpq).bind fun _ hg => fills_append (.inr hg)
  rest hk f h := .after fun a => hk a f h
  above _ h := absurd h (Nat.lt_irrefl 1)
  named {m k p q p' q'} hm hk h := by
    by_cases hpq : p < q + 1
    · exact (hm hpq).bind fun f hf => .after fun v => hk v f (.inl hf)
    · exact .after fun f => .after fun v => hk v f (.inr (by omega))
  define _ _ _ _ := fills_define
  perform _ _ h := absurd h (Nat.lt_irrefl 0)
  unary _ _ _ h := absurd h (Nat.lt_irrefl 1)
  storeField _ _ h := absurd h (by omega)
  storeStaticField _ h := absurd h (by omega)
  storeIndexed h := absurd h (by omega)
  strictCompare _ h := absurd h (by omega)
  staticCall _ _ _ _ _ := .after fun _ => fills_define
  instanceCall _ _ _ _ _ := .after fun _ => fills_define
  pushArgument h := absurd h (Nat.lt_irrefl 1)
  drop h := absurd h (by omega)
  giveBack _ h := absurd h (by omega)
  throwException _ h := absurd h (Nat.lt_irrefl 1)

theorem fills_joinArms (head yes no : Fragment) : Fills (joinArms head yes no) := by
  have (temp : Scoping.Variable) : filling.Adds (fun f => chain f [loadLocal temp]) 0 1 :=
    inferInstance
  exact .after fun _ => .after fun _ => .after fun _ => .after fun temp =>
    (this temp).made _ (.inr Nat.one_pos)

instance : filling.Complete where
  throws := rfl
  rethrow _ place := by
    have (t : Int) : filling.Made (rethrowException t) 2 1 := ⟨fun h => absurd h (by omega)⟩
    have : filling.Made (rethrowCaught place) 0 1 := by
      refine made_passive fun s => ?_
      split
      · exact made_malformed
      · infer_instance
    exact this.made
  conditional _ _ _ _ :=
    .after fun _ => .after fun _ => .after fun _ => .after fun _ => fills_joinArms _ _ _
  logical isOr _ _ _ _ _ := by
    refine .after fun temp => .after fun b => ?_
    cases isOr <;> exact .after fun _ => .after fun _ => .after fun _ => fills_joinArms _ _ _
  ifNull _ _ _ :=
    .after fun _ => .after fun _ => .after fun _ => .after fun _ => .after fun _ =>
      fills_joinArms _ _ _

theorem fills_newConstant (make : Nat → Constant.Value) : Fills (newConstant make) :=
  .after fun _ => fills_define

theorem fills_lowerExpr (e : Expr) : Fills (lowerExpr e) :=
  (made_lowerExpr filling e fun _ => trivial).made Nat.one_pos

theorem fills_lowerOption (e : Option Expr) : Fills (lowerOption e) :=
  (made_lowerOption filling e fun _ => trivial).made Nat.one_pos

theorem fills_declaration (v : Tree.Declaration) :
    Fills (declareVariable v (lowerOption v.initializer)) := by
  have hstore (x : Scoping.Variable) {m : LowerM Fragment} (hm : Fills m) :
      filling.Made (m >>= fun f => chain f [storeVariable x, drop]) 0 1 := by
    have : filling.Adds (fun f => chain f [storeVariable x, drop]) 1 0 := inferInstance
    exact ⟨fun _ => hm.bind fun f hf => this.made f (.inl hf)⟩
  refine (made_balanced (d := filling) (p := 0) (q := 1) (made_passive fun x => ?_)).made Nat.one_pos
  cases v.initializer with
  | none => exact hstore x (fills_newConstant _)
  | some e =>
    dsimp only
    split
    · exact hstore x (.after fun _ => fills_define)
    · exact hstore x (fills_lowerOption _)

end Fills

end Flowgraph.Lowering
