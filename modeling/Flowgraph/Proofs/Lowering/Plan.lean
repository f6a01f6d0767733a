import Flowgraph.Lowering.Build
import Flowgraph.Proofs.Lowering.Ends

/-! # Plans and graphs

Every function is lowered from one of a few kinds of code. What holds of all of
them holds of what a plan lowers, and a graph is what lowering a plan leaves.
-/

namespace Flowgraph.Lowering

open Constant (EvalM Stop Store)
open Flowgraph.Graph (Code Fragment)
open Symbols (FunctionInfo Table)

variable {α β : Type} {Q : α → Prop} {P : LowerM Fragment → Prop}

/-- `Q` holds of what the evaluation gives. -/
def Gives (m : EvalM α) (Q : α → Prop) : Prop := ∀ s a s', m.run s = (.ok a, s') → Q a

theorem run_bind (m : EvalM α) (k : α → EvalM β) (s : Store) :
    (m >>= k).run s = match m.run s with
      | (.ok a, s') => (k a).run s'
      | (.error stop, s') => (.error stop, s') := by
  change (ExceptT.bindCont k (m.run s).1) (m.run s).2 = _
  rcases m.run s with ⟨_ | _, _⟩ <;> rfl

theorem gives_pure {a : α} (h : Q a) : Gives (pure a) Q := by
  rintro s _ _ ⟨⟩
  exact h

theorem gives_throw {stop : Stop} : Gives (throw stop) Q := by rintro s _ _ ⟨⟩

theorem gives_failed {kind : FailureKind} {place : Position} {message : String} :
    Gives (failed kind place message) Q := gives_throw

theorem Gives.bind {m : EvalM α} {k : α → EvalM β} {Q : β → Prop} {M : α → Prop} (hm : Gives m M)
    (hk : ∀ a, M a → Gives (k a) Q) : Gives (m >>= k) Q := by
  intro s b s' h
  rw [run_bind] at h
  split at h
  · exact hk _ (hm _ _ _ ‹_›) _ _ _ h
  · cases h

theorem gives_bind {m : EvalM α} {k : α → EvalM β} {Q : β → Prop} (hk : ∀ a, Gives (k a) Q) :
    Gives (m >>= k) Q :=
  Gives.bind (M := fun _ => True) (fun _ _ _ _ => trivial) fun a _ => hk a

theorem gives_bind_of_left {m : EvalM α} {k : α → EvalM β} {Q : β → Prop}
    (hm : Gives m fun _ => False) : Gives (m >>= k) Q := hm.bind fun _ h => h.elim

theorem Gives.and {m : EvalM α} {Q Q' : α → Prop} (h : Gives m Q) (h' : Gives m Q') :
    Gives m fun a => Q a ∧ Q' a := fun s a s' hr => ⟨h s a s' hr, h' s a s' hr⟩

/-- The code of every kind of function. -/
structure Codes (P : LowerM Fragment → Prop) : Prop where
  member : ∀ info body, P (memberCode info body)
  closure : ∀ body, P (closureCode body)
  getter : ∀ t field, P (getterCode t field)
  setter : ∀ t field, P (setterCode t field)
  forwarding : ∀ info target, P (forwardingCode info target)
  initializer : ∀ field value, P (initializerCode field value)
  folded : ∀ field, P (inOrder [do constant (← evaluating (Constant.foldField field)), giveBack])

theorem gives_planMember (h : ∀ info body, P (memberCode info body)) (info : FunctionInfo) :
    Gives (planMember info) fun p => P p.code := by
  unfold planMember
  split
  · refine gives_bind fun analysis => ?_
    dsimp only
    split
    · exact gives_throw
    · exact gives_pure (h _ _)
  · exact gives_failed

theorem gives_planClosure (h : ∀ body, P (closureCode body)) (t : Table) (id : Nat) :
    Gives (planClosure t id) fun p => P p.code := by
  unfold planClosure
  dsimp only
  split
  · exact gives_failed
  · refine gives_bind fun analysis => ?_
    split
    · exact gives_failed
    · exact gives_pure (h _)

theorem gives_planTearOff (h : ∀ info target, P (forwardingCode info target)) (t : Table)
    (info : FunctionInfo) : Gives (planTearOff t info) fun p => P p.code := by
  unfold planTearOff
  split
  · exact gives_failed
  · dsimp only
    split
    · exact gives_bind fun _ => gives_bind fun _ => gives_pure (h _ _)
    · exact gives_bind fun _ => gives_pure (h _ _)

theorem gives_accessorField (info : FunctionInfo) :
    Gives (accessorField info) fun field => info.field = some field := by
  unfold accessorField
  split
  · exact gives_pure ‹_›
  · exact gives_failed

theorem gives_planInitializer (h : ∀ field value, P (initializerCode field value)) (t : Table)
    (info : FunctionInfo) (hfold : ∀ field, info.field = some field →
      (t.field field).isConst = true →
      P (inOrder [do constant (← evaluating (Constant.foldField field)), giveBack])) :
    Gives (planInitializer t info) fun p => P p.code := by
  refine (gives_accessorField info).bind fun id hid => ?_
  dsimp only
  split
  · split
    · exact gives_pure (hfold id hid ‹_›)
    · exact gives_bind fun _ => gives_pure (h _ _)
  · exact gives_failed

theorem gives_plan (h : Codes P) (t : Table) (id : Nat) : Gives (plan t id) fun p => P p.code := by
  unfold plan
  dsimp only
  split
  · exact gives_bind_of_left gives_failed
  · split
    · exact gives_bind fun _ => gives_pure (h.getter _ _)
    · exact gives_bind fun _ => gives_pure (h.setter _ _)
    · exact gives_planInitializer h.initializer _ _ fun field _ _ => h.folded field
    · exact gives_planClosure h.closure _ _
    · exact gives_planTearOff h.forwarding _ _
    all_goals first
      | exact gives_planMember h.member _
      | exact gives_failed

/-- Functions that check the stack before all else: all but the accessors of fields and the
initializers of constants. -/
def checksFirst (t : Table) (id : Nat) : Bool :=
  match (t.function id).kind with
  | .implicitGetter | .implicitSetter => false
  | .staticInitializer => (t.function id).field.all fun field => !(t.field field).isConst
  | _ => true

theorem gives_plan_of_checksFirst {t : Table} {id : Nat} (ht : checksFirst t id = true)
    (member : ∀ info body, P (memberCode info body)) (closure : ∀ body, P (closureCode body))
    (forwarding : ∀ info target, P (forwardingCode info target))
    (initializer : ∀ field value, P (initializerCode field value)) :
    Gives (plan t id) fun p => P p.code := by
  unfold checksFirst at ht
  unfold plan
  dsimp only
  split
  · exact gives_bind_of_left gives_failed
  · split
    · rename_i hkind
      rw [hkind] at ht
      cases ht
    · rename_i hkind
      rw [hkind] at ht
      cases ht
    · rename_i hkind
      rw [hkind] at ht
      refine gives_planInitializer initializer _ _ fun field hfield hconst => ?_
      simp [hfield, hconst] at ht
    · exact gives_planClosure closure _ _
    · exact gives_planTearOff forwarding _ _
    all_goals first
      | exact gives_planMember member _
      | exact gives_failed

theorem run_tryCatch (m : EvalM α) (handler : Stop → EvalM α) (s : Store) :
    (MonadExcept.tryCatch m handler).run s = match m.run s with
      | (.ok a, s') => (.ok a, s')
      | (.error stop, s') => (handler stop).run s' := by
  simp only [MonadExcept.tryCatch, tryCatchThe, MonadExceptOf.tryCatch, ExceptT.tryCatch, ExceptT.run,
    ExceptT.mk, bind, StateT.bind]
  rcases m s with ⟨_ | _, _⟩ <;> rfl

/-- What fails again when it is caught gives what it gives without the catch. -/
theorem run_tryCatch_ok {m : EvalM α} {handler : Stop → EvalM α} {s s' : Store} {a : α}
    (hh : ∀ stop, Gives (handler stop) fun _ => False)
    (h : (MonadExcept.tryCatch m handler).run s = (.ok a, s')) : m.run s = (.ok a, s') := by
  rw [run_tryCatch] at h
  split at h
  · rename_i hm
    exact hm.trans h
  · exact (hh _ _ _ _ h).elim

/-- A graph is what lowering a plan leaves, without a defect. -/
theorem build_ran {settings : Settings} {id : Nat} {s s' : Store} {g : Graph}
    (hb : (build settings id).run s = (.ok g, s')) :
    ∃ (p : Plan) (env : Env) (store : Store) (place : Position) (t : State),
      (plan s.table id).run s = (.ok p, store) ∧ env.settings = settings ∧ env.within = [] ∧
      runFrom env (functionBody (store.table.function id) p.code) (startState settings store place) =
        (.ok (), t) ∧ (t.graph id p.defaults).discover = (g, none) := by
  have hrun : (plan s.table id >>= fun p => p.graph settings id).run s = (.ok g, s') := by
    refine run_tryCatch_ok (fun stop => ?_) hb
    split
    · exact gives_bind fun _ => gives_throw
    · exact gives_throw
  rw [run_bind] at hrun
  split at hrun
  · rename_i p store hp
    change p.graph settings id store = _ at hrun
    unfold Plan.graph at hrun
    dsimp only at hrun
    split at hrun
    · cases hrun
    · rename_i t ht
      split at hrun
      · rename_i g' hd
        cases hrun
        exact ⟨p, _, store, _, t, hp, rfl, rfl, ht, hd⟩
      · cases hrun
  · cases hrun

theorem build_eq_ok {settings : Settings} {id : Nat} {s s' : Store} {g : Graph} {Q : Plan → Prop}
    (hb : (build settings id).run s = (.ok g, s')) (h : Gives (plan s.table id) Q) :
    ∃ (p : Plan) (env : Env) (store : Store) (place : Position) (t : State), Q p ∧
      env.settings = settings ∧ env.within = [] ∧
      runFrom env (functionBody (store.table.function id) p.code) (startState settings store place) =
        (.ok (), t) ∧ (t.graph id p.defaults).discover = (g, none) := by
  obtain ⟨p, env, store, place, t, hp, hrest⟩ := build_ran hb
  exact ⟨p, env, store, place, t, h _ _ _ hp, hrest⟩

theorem ends_functionBody {env : Env} {info : FunctionInfo} {code : LowerM Fragment} {s : State}
    {Q : Fragment → State → Prop} (h : Ends env code s Q) :
    Ends env (functionBody info code) s fun _ t => ∃ body s', Q body s' ∧ body.isOpen = false ∧
      t = { s' with code := ((Fragment.single 1).append body s'.code).2 } := by
  unfold functionBody
  refine h.bind fun body s' hbody => ?_
  dsimp only
  split
  · exact ends_bind.mpr ends_malformed
  · rename_i hopen
    rw [ends_bind, ends_get]
    split
    · exact ends_bind.mpr ends_malformed
    · rw [ends_bind, ends_append, ends_pure]
      exact ⟨body, s', hbody, Bool.eq_false_iff.mpr hopen, rfl⟩

/-! ## The code of a graph -/

section Graph

variable {s : State} {id : Nat} {defaults : List Constant.Value}

theorem get_graph {i : Nat} (hi : i ≠ 0) : (s.graph id defaults).code.get i = s.code.get i := by
  simp only [State.graph, Code.get, Array.getD_eq_getD_getElem?, Array.getElem?_modify]
  rw [if_neg (Ne.symm hi)]

theorem op_graph_root {b : Int} (h : 0 < s.code.size)
    (hr : s.code.op 0 = .entry { kind := .graph (some 1) [] [], block := b }) :
    (s.graph id defaults).code.get 0 = { s.code.get 0 with
      op := .entry { kind := .graph (some 1) s.handlers defaults, block := b } } := by
  have hget : s.code[0]? = some (s.code.get 0) := by
    simp [Code.get, h]
  simp only [Code.op] at hr
  simp only [State.graph, Code.get, Array.getD_eq_getD_getElem?, Array.getElem?_modify, if_true]
  simp [hget, hr]

theorem size_graph (s : State) (id : Nat) (defaults : List Constant.Value) :
    (s.graph id defaults).code.size = s.code.size := by simp [State.graph]

end Graph

end Flowgraph.Lowering
