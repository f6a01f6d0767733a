import Flowgraph.Proofs.Constant.Related

/-! # Expressions with memoization and without

Constant evaluation compares with evaluation that unfolds fields if its requests for
fields do.
-/

namespace Flowgraph.Constant

open Symbols (Table)

/-! ## What evaluation looks at -/

namespace Value

variable (v u : Value)

theorem text?_bare : v.bare.text? = v.text? := by cases v <;> rfl

theorem isNull_bare : v.bare.isNull = v.isNull := by cases v <;> rfl

theorem unaryOp_bare (name : String) : unaryOp v.bare name = unaryOp v name := by
  by_cases hminus : name = "unary-"
  · subst hminus
    cases v <;> rfl
  by_cases hnot : name = "~"
  · subst hnot
    cases v <;> rfl
  by_cases htext : name = "toString"
  · subst htext
    cases v <;> rfl
  have hnone (u : Value) : unaryOp u name = none := by
    unfold unaryOp
    split <;> simp_all
  rw [hnone, hnone]

theorem binaryOp_bare (name : String) : binaryOp v.bare name u.bare = binaryOp v name u := by
  cases v <;> cases u <;> rfl

def isNumber : Value → Bool
  | int .. | double .. => true
  | _ => false

theorem isNumber_bare : v.bare.isNumber = v.isNumber := by cases v <;> rfl

theorem equals_bare (h : (v.isNumber && u.isNumber) = true) :
    equals v.bare u.bare = equals v u := by
  cases v <;> cases u <;> first | rfl | cases h

theorem equals_eq_id (h : (v.isNumber && u.isNumber) = false) :
    equals v u = decide (v.id = u.id) := by
  cases v <;> cases u <;> first | rfl | cases h

end Value

namespace Same

variable {w : World} {v v' u u' : Value}

theorem text? (h : Same w v v') : v.text? = v'.text? := by
  rw [← v.text?_bare, h.bare, v'.text?_bare]

theorem isNull (h : Same w v v') : v.isNull = v'.isNull := by
  rw [← v.isNull_bare, h.bare, v'.isNull_bare]

theorem unaryOp (h : Same w v v') (name : String) :
    Constant.unaryOp v name = Constant.unaryOp v' name := by
  rw [← v.unaryOp_bare, h.bare, v'.unaryOp_bare]

theorem binaryOp (h : Same w v v') (hu : Same w u u') (name : String) :
    Constant.binaryOp v name u = Constant.binaryOp v' name u' := by
  rw [← v.binaryOp_bare, h.bare, hu.bare, v'.binaryOp_bare]

theorem id_eq_iff (hw : w.Valid) (h : Same w v v') (hu : Same w u u') :
    v.id = u.id ↔ v'.id = u'.id := by
  rw [hw.left.id_eq_iff h.left hu.left, hw.right.id_eq_iff h.right hu.right, h.bare, hu.bare]

theorem equals (hw : w.Valid) (h : Same w v v') (hu : Same w u u') :
    Constant.equals v u = Constant.equals v' u' := by
  have hnumber : (v.isNumber && u.isNumber) = (v'.isNumber && u'.isNumber) := by
    rw [← v.isNumber_bare, ← u.isNumber_bare, h.bare, hu.bare, v'.isNumber_bare, u'.isNumber_bare]
  cases hn : v.isNumber && u.isNumber with
  | true =>
    rw [← v.equals_bare u hn, h.bare, hu.bare, v'.equals_bare u' (hnumber ▸ hn)]
  | false =>
    rw [v.equals_eq_id u hn, v'.equals_eq_id u' (hnumber ▸ hn)]
    exact decide_eq_decide.mpr (h.id_eq_iff hw hu)

theorem bool_cases (h : Same w v v') :
    (∃ i j b, v = .bool i b ∧ v' = .bool j b) ∨
      (∀ i b, v ≠ .bool i b) ∧ ∀ i b, v' ≠ .bool i b := by
  have hbare := h.bare
  cases v <;> cases v' <;> simp_all [Value.bare]

theorem string_cases (h : Same w v v') :
    (∃ i j s, v = .string i s ∧ v' = .string j s) ∨
      (∀ i s, v ≠ .string i s) ∧ ∀ i s, v' ≠ .string i s := by
  have hbare := h.bare
  cases v <;> cases v' <;> simp_all [Value.bare]

end Same

/-! ## Environments, arguments and receivers -/

/-- The same constant under the same name. -/
def SamePair {κ : Type} (w : World) (p q : κ × Value) : Prop := p.1 = q.1 ∧ Same w p.2 q.2

abbrev SameAll (w : World) : List Value → List Value → Prop := List.Forall₂ (Same w)

abbrev SameEnv {κ : Type} (w : World) : List (κ × Value) → List (κ × Value) → Prop :=
  List.Forall₂ (SamePair w)

structure SameActuals (w : World) (a b : Actuals) : Prop where
  positional : SameAll w a.positional b.positional
  named : SameEnv w a.named b.named

abbrev SameReceiver (w : World) : Receiver → Receiver → Prop := List.Forall₂ (Option.Rel (Same w))

section

variable {w w' : World} {κ : Type}

theorem SamePair.mono {p q : κ × Value} (h : SamePair w p q) (hw : Grows w w') : SamePair w' p q :=
  ⟨h.1, h.2.mono hw⟩

theorem SameAll.mono {vs us : List Value} (h : SameAll w vs us) (hw : Grows w w') :
    SameAll w' vs us := h.imp fun _ _ h => h.mono hw

theorem SameAll.left {vs us : List Value} (h : SameAll w vs us) : ∀ x ∈ vs, x ∈ w.left.values := by
  induction h with
  | nil => simp
  | cons hhead _ ih => simpa using ⟨hhead.left, ih⟩

theorem SameAll.right {vs us : List Value} (h : SameAll w vs us) :
    ∀ x ∈ us, x ∈ w.right.values := by
  induction h with
  | nil => simp
  | cons hhead _ ih => simpa using ⟨hhead.right, ih⟩

theorem SameAll.map_bare {vs us : List Value} (h : SameAll w vs us) :
    vs.map Value.bare = us.map Value.bare := by
  induction h with
  | nil => rfl
  | cons hhead _ ih => rw [List.map_cons, List.map_cons, hhead.bare, ih]

theorem SameAll.any_id_iff {vs us : List Value} {v u : Value} (h : SameAll w vs us) (hw : w.Valid)
    (hv : Same w v u) : (vs.any (·.id = v.id)) = true ↔ (us.any (·.id = u.id)) = true := by
  induction h with
  | nil => simp
  | cons hhead _ ih => simp only [List.any_cons, Bool.or_eq_true, decide_eq_true_eq, ih,
      hhead.id_eq_iff hw hv]

theorem SameAll.getElem? {vs us : List Value} (h : SameAll w vs us) (i : Nat) :
    Option.Rel (Same w) vs[i]? us[i]? := by
  induction h generalizing i with
  | nil => exact .none
  | cons hhead _ ih =>
    cases i with
    | zero => exact .some hhead
    | succ i => simpa using ih i

theorem SameEnv.mono {env env' : List (κ × Value)} (h : SameEnv w env env') (hw : Grows w w') :
    SameEnv w' env env' := h.imp fun _ _ h => h.mono hw

theorem SameActuals.mono {a b : Actuals} (h : SameActuals w a b) (hw : Grows w w') :
    SameActuals w' a b := ⟨SameAll.mono h.positional hw, SameEnv.mono h.named hw⟩

theorem SameReceiver.mono {a b : Receiver} (h : SameReceiver w a b) (hw : Grows w w') :
    SameReceiver w' a b :=
  h.imp fun _ _ h => by
    cases h with
    | some h => exact .some (h.mono hw)
    | none => exact .none

theorem SameEnv.find? [DecidableEq κ] {env env' : List (κ × Value)} (h : SameEnv w env env')
    (key : κ) :
    Option.Rel (SamePair w) (env.find? (·.1 = key)) (env'.find? (·.1 = key)) := by
  induction h with
  | nil => exact .none
  | @cons p q env env' hpq _ ih =>
    simp only [List.find?_cons, ← hpq.1]
    split
    · exact .some hpq
    · exact ih

theorem SameEnv.value? [DecidableEq κ] {env env' : List (κ × Value)} (h : SameEnv w env env')
    (key : κ) : Option.Rel (Same w) ((env.find? (·.1 = key)).map (·.2))
      ((env'.find? (·.1 = key)).map (·.2)) := by
  have hfind := h.find? key
  generalize env.find? _ = found, env'.find? _ = found' at hfind ⊢
  cases hfind with
  | some hpair => exact .some hpair.2
  | none => exact .none

theorem SameEnv.any_iff [DecidableEq κ] {env env' : List (κ × Value)} (h : SameEnv w env env')
    (key : κ) : env.any (·.1 = key) = env'.any (·.1 = key) := by
  induction h with
  | nil => rfl
  | cons hpq _ ih => simp only [List.any_cons, hpq.1, ih]

theorem SameEnv.filter_ne [DecidableEq κ] {env env' : List (κ × Value)} (h : SameEnv w env env')
    (key : κ) : SameEnv w (env.filter (·.1 ≠ key)) (env'.filter (·.1 ≠ key)) := by
  induction h with
  | nil => exact .nil
  | cons hpq _ ih =>
    simp only [List.filter_cons, ← hpq.1]
    split
    · exact .cons hpq ih
    · exact ih

theorem SameActuals.addNamed {a b : Actuals} {v v' : Value} (h : SameActuals w a b) (name : String)
    (hv : Same w v v') : SameActuals w (a.addNamed name v) (b.addNamed name v') :=
  ⟨h.positional, List.rel_append (h.named.filter_ne name) (.cons ⟨rfl, hv⟩ .nil)⟩

theorem SameReceiver.replicate (n : Nat) :
    SameReceiver w (List.replicate n none) (List.replicate n none) :=
  List.forall₂_same.mpr fun v hv => by
    rw [List.eq_of_mem_replicate hv]
    exact .none

theorem SameReceiver.set {a b : Receiver} {v v' : Value} (h : SameReceiver w a b) (i : Nat)
    (hv : Same w v v') : SameReceiver w (a.set i (some v)) (b.set i (some v')) := by
  induction h generalizing i with
  | nil => exact .nil
  | cons hhead htail ih =>
    cases i with
    | zero => exact .cons (.some hv) htail
    | succ i => exact .cons hhead (ih i)

end

/-! ## Evaluation -/

section

variable {α β : Type} {t : Table} {V : World → α → β → Prop} {x : EvalM α} {w : World}

theorem Related.deeper {Y : Nat → Nat → EvalM β} {k : Nat} (hzero : ∀ n, Y n 0 = throw .exhausted)
    (h : Related t V x (fun n => Y n (n - (k + 1) + 1)) w) :
    Related t V x (fun n => Y n (n - k)) w := by
  refine h.later (k := k) (fun n hn => ?_) fun n hn => ?_
  · rw [Nat.sub_eq_zero_of_le hn, hzero]
  · rw [show n - k = n - (k + 1) + 1 by omega]

theorem Related.intern_list {vs us : List Value} (h : SameAll w vs us) :
    Related t Same (Constant.intern (.list · vs)) (fun _ => Constant.intern (.list · us)) w :=
  .intern (.list vs) (.list us)
    (by simp only [Request.bare, Request.make, Value.bare, Value.bareAll_eq_map, h.map_bare])
    h.left h.right

theorem Related.intern_map {keys keys' values values' : List Value} (hkeys : SameAll w keys keys')
    (hvalues : SameAll w values values') :
    Related t Same (Constant.intern (.map · keys values))
      (fun _ => Constant.intern (.map · keys' values')) w :=
  .intern (.map keys values) (.map keys' values')
    (by simp only [Request.bare, Request.make, Value.bare, Value.bareAll_eq_map, hkeys.map_bare,
      hvalues.map_bare])
    (fun x hx => (List.mem_append.mp hx).elim (hkeys.left x) (hvalues.left x))
    fun x hx => (List.mem_append.mp hx).elim (hkeys.right x) (hvalues.right x)

theorem Related.intern_object {className : String} {vs us : List Value} (h : SameAll w vs us) :
    Related t Same (Constant.intern (.object · className vs))
      (fun _ => Constant.intern (.object · className us)) w :=
  .intern (.object className vs) (.object className us)
    (by simp only [Request.bare, Request.make, Value.bare, Value.bareAll_eq_map, h.map_bare])
    h.left h.right

theorem Related.intern_result (result : Result) :
    Related t Same result.intern (fun _ => result.intern) w := by
  cases result with
  | bool b => exact .intern (.bool b) (.bool b) rfl nofun nofun
  | int i => exact .intern (.int i) (.int i) rfl nofun nofun
  | double d => exact .intern (.double d) (.double d) rfl nofun nofun
  | string s => exact .intern (.string s) (.string s) rfl nofun nofun

theorem not_isCyclic_of_unresolved {f : Failure} (h : f.kind = .unresolved) : ¬IsCyclic f := fun hf =>
  nomatch h.symm.trans hf.1

theorem Related.resolveConstructor (target : Tree.MemberRef) :
    Related t (fun _ id id' => id = id' ∧ t.resolveConstructor target = .ok id)
      (Constant.query (·.resolveConstructor target))
      (fun _ => Constant.query (·.resolveConstructor target)) w :=
  .query (fun _ ht => ht.resolveConstructor target) fun _ hf =>
    not_isCyclic_of_unresolved (Table.kind_of_resolveConstructor hf)

theorem Related.ite {c c' : Prop} [Decidable c] [Decidable c'] {x' : EvalM α}
    {y y' : Nat → EvalM β} (hc : c ↔ c') (h : c → Related t V x y w)
    (h' : ¬c → Related t V x' y' w) :
    Related t V (if c then x else x') (fun n => if c' then y n else y' n) w := by
  by_cases hcond : c
  · simpa only [if_pos hcond, if_pos (hc.mp hcond)] using h hcond
  · simpa only [if_neg hcond, if_neg (mt hc.mpr hcond)] using h' hcond

theorem Related.fail_bind {γ δ : Type} {kind : FailureKind} {place : Position}
    {message message' : String} {f : γ → EvalM α} {g : Nat → δ → EvalM β} :
    Related t V (Constant.fail kind place message >>= f)
      (fun n => Constant.fail kind place message' >>= g n) w :=
  Related.bind (V := fun _ _ _ => False) .fail fun _ _ _ _ _ h => h.elim

end

/-- All parts of evaluation at one depth, for one way to ask for fields and another. -/
structure Evaluates (t : Table) (ask : Nat → EvalM Value) (ask' : Nat → Nat → EvalM Value)
    (d : Nat) : Prop where
  expr : ∀ {k w env env'} e, SameEnv w env env' →
    Related t Same (evaluate ask d env e) (fun n => evaluate (ask' n) (n - k) env' e) w
  bool : ∀ {k w env env'} e, SameEnv w env env' → Related t (fun _ => Eq)
    (evaluateBool ask d env e) (fun n => evaluateBool (ask' n) (n - k) env' e) w
  text : ∀ {k w env env'} e, SameEnv w env env' → Related t (fun _ => Eq)
    (evaluateText ask d env e) (fun n => evaluateText (ask' n) (n - k) env' e) w
  entry : ∀ {k w env env' keys keys' values values'} e, SameEnv w env env' →
    SameAll w keys keys' → SameAll w values values' →
    Related t (fun w p q => SameAll w p.1 q.1 ∧ SameAll w p.2 q.2)
      (evaluateEntry ask d env (keys, values) e)
      (fun n => evaluateEntry (ask' n) (n - k) env' (keys', values') e) w
  positional : ∀ {k w env env' place} args, SameEnv w env env' → Related t SameAll
    (evaluatePositional ask d env place args)
    (fun n => evaluatePositional (ask' n) (n - k) env' place args) w
  arguments : ∀ {k w env env'} args, SameEnv w env env' → Related t SameActuals
    (evaluateArguments ask d env args) (fun n => evaluateArguments (ask' n) (n - k) env' args) w
  parameters : ∀ {k w place id f actuals actuals'}, SameActuals w actuals actuals' →
    Related t SameEnv (bindParameters ask d place id f actuals)
      (fun n => bindParameters (ask' n) (n - k) place id f actuals') w
  constructor : ∀ {k w place id fields fields' actuals actuals'}, t.Known id →
    SameReceiver w fields fields' → SameActuals w actuals actuals' →
    Related t SameReceiver (runConstructor ask d place id fields actuals)
      (fun n => runConstructor (ask' n) (n - k) place id fields' actuals') w
  initializer : ∀ {k w env env' className fields fields'} init, SameEnv w env env' →
    SameReceiver w fields fields' →
    Related t SameReceiver (runInitializer ask d env className fields init)
      (fun n => runInitializer (ask' n) (n - k) env' className fields' init) w

namespace Evaluates

variable {t : Table} {ask : Nat → EvalM Value} {ask' : Nat → Nat → EvalM Value} {d : Nat}

theorem zero : Evaluates t ask ask' 0 where
  expr _ _ := .throw_exhausted
  bool _ _ := .throw_exhausted
  text _ _ := .throw_exhausted
  entry _ _ _ _ := .throw_exhausted
  positional _ _ := .throw_exhausted
  arguments _ _ := .throw_exhausted
  parameters _ := .throw_exhausted
  constructor _ _ _ := .throw_exhausted
  initializer _ _ _ := .throw_exhausted

variable {k : Nat} {w : World} {env env' : Env}

theorem bool_succ (h : Evaluates t ask ask' d) (e : Tree.Expr) (henv : SameEnv w env env') :
    Related t (fun _ => Eq) (evaluateBool ask (d + 1) env e)
      (fun n => evaluateBool (ask' n) (n - k) env' e) w := by
  refine Related.deeper (Y := fun n m => evaluateBool (ask' n) m env' e) (fun _ => rfl) ?_
  simp only [evaluateBool]
  refine (h.expr e henv).bind fun w1 hw1 _ v v' hv => ?_
  rcases hv.bool_cases with ⟨i, j, b, rfl, rfl⟩ | ⟨hv1, hv2⟩
  · exact .pure fun _ _ _ => rfl
  · split
    · exact absurd rfl (hv1 _ _)
    · exact .fail

theorem text_succ (h : Evaluates t ask ask' d) (e : Tree.Expr) (henv : SameEnv w env env') :
    Related t (fun _ => Eq) (evaluateText ask (d + 1) env e)
      (fun n => evaluateText (ask' n) (n - k) env' e) w := by
  refine Related.deeper (Y := fun n m => evaluateText (ask' n) m env' e) (fun _ => rfl) ?_
  simp only [evaluateText]
  refine (h.expr e henv).bind fun w1 hw1 _ v v' hv => ?_
  rw [hv.text?]
  split
  · exact .pure fun _ _ _ => rfl
  · exact .fail

theorem entry_succ (h : Evaluates t ask ask' d) {keys keys' values values' : List Value}
    (e : Tree.MapEntry) (henv : SameEnv w env env') (hkeys : SameAll w keys keys')
    (hvalues : SameAll w values values') :
    Related t (fun w p q => SameAll w p.1 q.1 ∧ SameAll w p.2 q.2)
      (evaluateEntry ask (d + 1) env (keys, values) e)
      (fun n => evaluateEntry (ask' n) (n - k) env' (keys', values') e) w := by
  refine Related.deeper (Y := fun n m => evaluateEntry (ask' n) m env' (keys', values') e)
    (fun _ => rfl) ?_
  simp only [evaluateEntry]
  refine (h.expr e.key henv).bind fun w1 hw1 _ key key' hkey => ?_
  refine (h.expr e.value (henv.mono hw1)).bind fun w2 hw2 hvalid value value' hvalue => ?_
  have hkeys2 := hkeys.mono (hw1.trans hw2)
  have hkey2 := hkey.mono hw2
  refine .ite (hkeys2.any_id_iff hvalid hkey2) (fun _ => ?_) fun _ => ?_
  · exact .get fun _ _ _ _ _ => .fail_bind
  · refine .pure fun w3 hw3 _ => ⟨?_, ?_⟩
    · exact List.rel_append (hkeys2.mono hw3) (.cons (hkey2.mono hw3) .nil)
    · exact List.rel_append (hvalues.mono (hw1.trans (hw2.trans hw3))) (.cons (hvalue.mono hw3) .nil)

theorem positional_succ (h : Evaluates t ask ask' d) {place : Position} (args : Tree.Arguments)
    (henv : SameEnv w env env') :
    Related t SameAll (evaluatePositional ask (d + 1) env place args)
      (fun n => evaluatePositional (ask' n) (n - k) env' place args) w := by
  refine Related.deeper (Y := fun n m => evaluatePositional (ask' n) m env' place args)
    (fun _ => rfl) ?_
  simp only [evaluatePositional]
  refine .ite Iff.rfl (fun _ => .fail_bind) fun _ => ?_
  exact .mapM (fun _ _ _ _ hw h => h.mono hw) fun e _ => h.expr e henv

theorem arguments_succ (h : Evaluates t ask ask' d) (args : Tree.Arguments)
    (henv : SameEnv w env env') :
    Related t SameActuals (evaluateArguments ask (d + 1) env args)
      (fun n => evaluateArguments (ask' n) (n - k) env' args) w := by
  refine Related.deeper (Y := fun n m => evaluateArguments (ask' n) m env' args)
    (fun _ => rfl) ?_
  simp only [evaluateArguments]
  refine Related.bind (.mapM (fun _ _ _ _ hw h => h.mono hw) fun e _ => h.expr e henv)
    fun w1 hw1 _ vs vs' hvs => ?_
  refine .foldlM (fun _ _ _ _ hw h => h.mono hw) (fun w2 hw2 arg _ a b hab => ?_) ⟨hvs, .nil⟩
  refine (h.expr arg.value (henv.mono (hw1.trans hw2))).bind fun w3 hw3 _ v v' hv => ?_
  exact .pure fun w4 hw4 _ => (hab.mono (hw3.trans hw4)).addNamed arg.name (hv.mono hw4)

theorem parameters_succ (h : Evaluates t ask ask' d) {place : Position} {id : Nat}
    {f : Tree.Function} {actuals actuals' : Actuals} (hactuals : SameActuals w actuals actuals') :
    Related t SameEnv (bindParameters ask (d + 1) place id f actuals)
      (fun n => bindParameters (ask' n) (n - k) place id f actuals') w := by
  refine Related.deeper (Y := fun n m => bindParameters (ask' n) m place id f actuals')
    (fun _ => rfl) ?_
  have hparam (param : Tree.Declaration) {w : World} {v v' : Option Value}
      (hv : Option.Rel (Same w) v v') :
      Related t SamePair (bindParameter (evaluate ask d []) v param)
        (fun n => bindParameter (evaluate (ask' n) (n - (k + 1)) []) v' param) w := by
    unfold bindParameter
    cases hv with
    | some hv => exact .pure fun _ hw _ => ⟨rfl, hv.mono hw⟩
    | none =>
      cases param.initializer with
      | none =>
        refine Related.bind (.intern .null .null rfl nofun nofun) ?_
        exact fun _ _ _ _ _ hv => .pure fun _ hw _ => ⟨rfl, hv.mono hw⟩
      | some e =>
        refine Related.bind (h.expr e .nil) ?_
        exact fun _ _ _ _ _ hv => .pure fun _ hw _ => ⟨rfl, hv.mono hw⟩
  simp only [bindParameters]
  refine .get fun s r _ _ hw => ?_
  refine .ite (by rw [hactuals.positional.length_eq]) (fun _ => .fail_bind) fun _ => ?_
  refine Related.bind (Related.mapM (V := SamePair) (fun _ _ _ _ hw h => h.mono hw) fun p _ =>
    hparam p.1 ((hactuals.mono hw).positional.getElem? p.2)) fun w1 hw1 _ env env' henv => ?_
  refine Related.bind (Related.mapM (V := SamePair) (fun _ _ _ _ hw h => h.mono hw) fun p _ =>
    hparam p ?_) fun w2 hw2 _ named named' hnamed => ?_
  · exact (hactuals.mono (hw.trans hw1)).named.value? p.name
  refine .ite ?_ (fun _ => .fail_bind) fun _ => ?_
  · simp only [hactuals.named.any_iff, hactuals.named.length_eq]
  · exact .pure fun w3 hw3 _ =>
      List.rel_append (SameEnv.mono henv (hw2.trans hw3)) (SameEnv.mono hnamed hw3)

theorem constructor_succ (h : Evaluates t ask ask' d) {place : Position} {id : Nat}
    {fields fields' : Receiver} {actuals actuals' : Actuals} (hid : t.Known id)
    (hfields : SameReceiver w fields fields') (hactuals : SameActuals w actuals actuals') :
    Related t SameReceiver (runConstructor ask (d + 1) place id fields actuals)
      (fun n => runConstructor (ask' n) (n - k) place id fields' actuals') w := by
  refine Related.deeper (Y := fun n m => runConstructor (ask' n) m place id fields' actuals')
    (fun _ => rfl) ?_
  simp only [runConstructor]
  refine .get fun s r hs hr hw => ?_
  simp only [hs.function id hid, hr.function id hid, hs.field, hr.field, hs.class?, hr.class?,
    hs.instanceFields, hr.instanceFields]
  refine .ite Iff.rfl (fun _ => .fail_bind) fun _ => ?_
  cases (t.function id).constructor? with
  | none =>
    refine .ite Iff.rfl (fun _ => .fail_bind) fun _ => ?_
    exact .pure fun _ hw' _ => hfields.mono (hw.trans hw')
  | some decl =>
    refine .ite Iff.rfl (fun _ => .fail_bind) fun _ => ?_
    refine (h.parameters (hactuals.mono hw)).bind fun w1 hw1 _ env env' henv => ?_
    refine Related.bind (Related.foldlM (V := SameReceiver) (fun _ _ _ _ hw h => h.mono hw)
      (fun w2 hw2 f _ a b hab => ?_) (hfields.mono (hw.trans hw1))) fun w2 hw2 _ own own' hown => ?_
    · cases (t.field f).isStatic with
      | true => exact .pure fun _ hw' _ => hab.mono hw'
      | false =>
        cases (t.field f).initializer with
        | none => exact .pure fun _ hw' _ => hab.mono hw'
        | some e =>
          refine (h.expr e .nil).bind fun w3 hw3 _ v v' hv => ?_
          exact .pure fun w4 hw4 _ => (hab.mono (hw3.trans hw4)).set _ (hv.mono hw4)
    refine Related.bind (Related.foldlM (V := SameReceiver) (fun _ _ _ _ hw h => h.mono hw)
      (fun w3 hw3 init _ a b hab => h.initializer init (henv.mono (hw2.trans hw3)) hab) hown)
      fun w3 hw3 _ all all' hall => ?_
    refine .ite Iff.rfl (fun _ => .pure fun _ hw' _ => hall.mono hw') fun _ => ?_
    cases (t.class? ((t.function id).owner.getD "")).bind (·.super) with
    | none => exact .pure fun _ hw' _ => hall.mono hw'
    | some super =>
      refine .ite Iff.rfl (fun _ => .pure fun _ hw' _ => hall.mono hw') fun _ => ?_
      refine (Related.resolveConstructor _).bind fun w4 hw4 _ target target' htarget => ?_
      obtain ⟨rfl, hfound⟩ := htarget
      exact h.constructor (Table.known_of_resolveConstructor hfound) (hall.mono hw4) ⟨.nil, .nil⟩

theorem initializer_succ (h : Evaluates t ask ask' d) {className : String}
    {fields fields' : Receiver} (init : Tree.Initializer) (henv : SameEnv w env env')
    (hfields : SameReceiver w fields fields') :
    Related t SameReceiver (runInitializer ask (d + 1) env className fields init)
      (fun n => runInitializer (ask' n) (n - k) env' className fields' init) w := by
  refine Related.deeper (Y := fun n m => runInitializer (ask' n) m env' className fields' init)
    (fun _ => rfl) ?_
  have hcall (target : Tree.MemberRef) (args : Tree.Arguments) (place : Position) :
      Related t SameReceiver
        (do
          let id ← query (·.resolveConstructor target)
          let actuals ← evaluateArguments ask d env args
          runConstructor ask d place id fields actuals)
        (fun n => do
          let id ← query (·.resolveConstructor target)
          let actuals ← evaluateArguments (ask' n) (n - (k + 1)) env' args
          runConstructor (ask' n) (n - (k + 1)) place id fields' actuals) w := by
    refine (Related.resolveConstructor target).bind fun w1 hw1 _ id id' hid => ?_
    obtain ⟨rfl, hfound⟩ := hid
    refine (h.arguments args (henv.mono hw1)).bind fun w2 hw2 _ actuals actuals' hactuals => ?_
    exact h.constructor (Table.known_of_resolveConstructor hfound)
      (hfields.mono (hw1.trans hw2)) hactuals
  cases init with
  | field place name value =>
    simp only [runInitializer]
    refine .get fun s r hs hr hw => ?_
    simp only [hs.field, hr.field]
    refine Related.bind (.query (fun _ ht => ht.resolveField _) fun _ hf =>
      not_isCyclic_of_unresolved (Table.kind_of_resolveField hf)) fun w1 hw1 _ id id' hid => ?_
    obtain ⟨rfl, -⟩ := hid
    refine .ite Iff.rfl (fun _ => .fail_bind) fun _ => ?_
    refine (h.expr value (henv.mono (hw.trans hw1))).bind fun w2 hw2 _ v v' hv => ?_
    exact .pure fun w3 hw3 _ =>
      (hfields.mono (hw.trans (hw1.trans (hw2.trans hw3)))).set _ (hv.mono hw3)
  | superCall place target args => exact hcall target args place
  | redirect place target args => exact hcall target args place

theorem dispatch {place : Position} {receiver receiver' : Value} {name : String}
    {args args' : List Value} (hw : w.Valid) (hreceiver : Same w receiver receiver')
    (hargs : SameAll w args args') :
    Related t Same (Constant.dispatch place receiver name args)
      (fun _ => Constant.dispatch place receiver' name args') w := by
  unfold Constant.dispatch
  cases hargs with
  | nil =>
    simp only [hreceiver.unaryOp]
    split
    · exact .intern_result _
    · exact .fail
  | @cons arg arg' _ _ harg hrest =>
    cases hrest with
    | cons _ _ => exact .fail
    | nil =>
      simp only [hreceiver.equals hw harg, hreceiver.binaryOp harg]
      refine .ite Iff.rfl (fun _ => .intern_result _) fun _ => ?_
      split
      · exact .intern_result _
      · exact .fail
      · exact .fail

theorem expr_succ (h : Evaluates t ask ask' d)
    (hask : ∀ id w, Related t Same (ask id) (fun n => ask' n id) w) (e : Tree.Expr)
    (henv : SameEnv w env env') :
    Related t Same (evaluate ask (d + 1) env e) (fun n => evaluate (ask' n) (n - k) env' e) w := by
  refine Related.deeper (Y := fun n m => evaluate (ask' n) m env' e) (fun _ => rfl) ?_
  cases e with
  | absent => exact .throw_crashed
  | null place => exact .intern .null .null rfl nofun nofun
  | bool place b => exact .intern_result (.bool b)
  | int place i => exact .intern_result (.int i)
  | double place f => exact .intern_result (.double (.ofFloat f))
  | string place s => exact .intern_result (.string s)
  | symbol place name => exact .intern (.symbol name) (.symbol name) rfl nofun nofun
  | typeLit place className =>
    simp only [evaluate]
    refine Related.bind (.query (fun _ ht => ht.resolveClass _) fun _ hf =>
      not_isCyclic_of_unresolved (Table.kind_of_resolveClass hf)) fun w1 hw1 _ c c' hc => ?_
    exact .intern (.typeOf className) (.typeOf className) rfl nofun nofun
  | list place elements isConst =>
    simp only [evaluate]
    refine Related.bind (Related.mapM (V := Same) (fun _ _ _ _ hw h => h.mono hw) fun e _ =>
      h.expr e henv) fun w1 hw1 _ vs vs' hvs => ?_
    exact .intern_list hvs
  | map place entries isConst =>
    simp only [evaluate]
    refine Related.bind (Related.foldlM
      (V := fun w (p q : List Value × List Value) => SameAll w p.1 q.1 ∧ SameAll w p.2 q.2)
      (fun _ _ _ _ hw h => ⟨h.1.mono hw, h.2.mono hw⟩)
      (fun w1 hw1 entry _ p q hpq => h.entry entry (henv.mono hw1) hpq.1 hpq.2) ⟨.nil, .nil⟩)
      fun w1 hw1 _ p q hpq => ?_
    exact .intern_map hpq.1 hpq.2
  | concat place parts =>
    simp only [evaluate]
    refine Related.bind (Related.mapM (V := fun _ => Eq) (fun _ _ _ _ _ h => h) fun e _ =>
      h.text e henv) fun w1 hw1 _ texts texts' htexts => ?_
    obtain rfl : texts = texts' := by simpa [List.forall₂_eq_eq_eq] using htexts
    exact .intern_result (.string _)
  | get place var =>
    simp only [evaluate]
    have hfind := henv.find? var.id
    generalize env.find? _ = found, env'.find? _ = found' at hfind ⊢
    cases hfind with
    | some hpair => exact .pure fun _ hw _ => hpair.2.mono hw
    | none =>
      refine .get fun s r hs hr hw => ?_
      simp only [hs.localConstants, hr.localConstants]
      split
      · exact h.expr _ (henv.mono hw)
      · exact .fail
  | staticGet place target =>
    simp only [evaluate]
    refine .get fun s r hs hr hw => ?_
    simp only [hs.lookupField, hr.lookupField, hs.field, hr.field]
    split
    · exact .ite Iff.rfl (fun _ => hask _ _) fun _ => .fail
    · exact .fail
  | construct place target args isConst =>
    simp only [evaluate]
    refine (Related.resolveConstructor target).bind fun w1 hw1 _ id id' hid => ?_
    obtain ⟨rfl, hfound⟩ := hid
    have hknown := Table.known_of_resolveConstructor hfound
    refine .get fun s r hs hr hw2 => ?_
    simp only [hs.function id hknown, hr.function id hknown]
    refine .ite Iff.rfl (fun _ => .fail_bind) fun _ => ?_
    refine (h.arguments args (henv.mono (hw1.trans hw2))).bind
      fun w3 hw3 _ actuals actuals' hactuals => ?_
    refine .get fun s r hs hr hw4 => ?_
    simp only [hs.instanceFields, hr.instanceFields]
    refine (h.constructor hknown (.replicate _) (hactuals.mono hw4)).bind
      fun w5 hw5 _ fields fields' hfields => ?_
    refine Related.bind (Related.mapM₂ (V := Same) (fun _ _ _ _ hw h => h.mono hw)
      (hfields.imp fun v v' hv => ?_)) fun w6 hw6 _ vs vs' hvs => ?_
    · cases hv with
      | some hv => exact .pure fun _ hw _ => hv.mono hw
      | none => exact .intern .null .null rfl nofun nofun
    · exact .intern_object hvs
  | staticCall place target args isConst =>
    simp only [evaluate]
    refine Related.bind (.query (fun _ ht => ht.resolveFunction _) fun _ hf =>
      not_isCyclic_of_unresolved (Table.kind_of_resolveFunction hf)) fun w1 hw1 _ id id' hid => ?_
    obtain ⟨rfl, hfound⟩ := hid
    have hknown := Table.known_of_resolveFunction hfound
    refine .get fun s r hs hr hw2 => ?_
    simp only [hs.function id hknown, hr.function id hknown]
    refine .ite Iff.rfl (fun _ => .fail_bind) fun _ => ?_
    refine (h.positional args (henv.mono (hw1.trans hw2))).bind fun w3 hw3 hvalid vs vs' hvs => ?_
    cases hvs with
    | nil => exact .fail
    | cons ha hvs =>
      cases hvs with
      | nil => exact .fail
      | cons hb hvs =>
        cases hvs with
        | cons _ _ => exact .fail
        | nil =>
          simp only [ha.id_eq_iff hvalid hb]
          exact .intern_result _
  | methodCall place receiver name args =>
    simp only [evaluate]
    refine (h.expr receiver henv).bind fun w1 hw1 _ v v' hv => ?_
    refine (h.positional args (henv.mono hw1)).bind fun w2 hw2 hvalid vs vs' hvs => ?_
    exact dispatch hvalid (hv.mono hw2) hvs
  | propertyGet place receiver name =>
    simp only [evaluate]
    refine (h.expr receiver henv).bind fun w1 hw1 _ v v' hv => ?_
    rcases hv.string_cases with ⟨i, j, s, rfl, rfl⟩ | ⟨hv1, hv2⟩
    · by_cases hname : name = "length"
      · subst hname
        exact .intern_result (.int _)
      · split
        · exact absurd rfl hname
        · split
          · exact absurd rfl hname
          · exact .fail
    · split
      · exact absurd rfl (hv1 _ _)
      · split
        · exact absurd rfl (hv2 _ _)
        · exact .fail
  | not place operand =>
    simp only [evaluate]
    refine (h.bool operand henv).bind fun w1 hw1 _ b b' hb => ?_
    subst hb
    exact .intern_result (.bool _)
  | logical place op left right =>
    cases op with
    | and =>
      simp only [evaluate]
      refine (h.bool left henv).bind fun w1 hw1 _ b b' hb => ?_
      subst hb
      refine .ite Iff.rfl (fun _ => ?_) fun _ => .intern_result (.bool false)
      refine (h.bool right (henv.mono hw1)).bind fun w2 hw2 _ b b' hb => ?_
      subst hb
      exact .intern_result (.bool b)
    | or =>
      simp only [evaluate]
      refine (h.bool left henv).bind fun w1 hw1 _ b b' hb => ?_
      subst hb
      refine .ite Iff.rfl (fun _ => .intern_result (.bool true)) fun _ => ?_
      refine (h.bool right (henv.mono hw1)).bind fun w2 hw2 _ b b' hb => ?_
      subst hb
      exact .intern_result (.bool b)
    | ifNull =>
      simp only [evaluate]
      refine (h.expr left henv).bind fun w1 hw1 _ v v' hv => ?_
      refine .ite (by rw [hv.isNull]) (fun _ => h.expr right (henv.mono hw1)) fun _ => ?_
      exact .pure fun _ hw _ => hv.mono hw
  | conditional place condition yes no =>
    simp only [evaluate]
    refine (h.bool condition henv).bind fun w1 hw1 _ b b' hb => ?_
    subst hb
    exact .ite Iff.rfl (fun _ => h.expr yes (henv.mono hw1)) fun _ => h.expr no (henv.mono hw1)
  | _ => exact .fail

theorem all (hask : ∀ id w, Related t Same (ask id) (fun n => ask' n id) w) (d : Nat) :
    Evaluates t ask ask' d := by
  induction d with
  | zero => exact zero
  | succ d h =>
    exact
      { expr := h.expr_succ hask
        bool := h.bool_succ
        text := h.text_succ
        entry := h.entry_succ
        positional := h.positional_succ
        arguments := h.arguments_succ
        parameters := h.parameters_succ
        constructor := h.constructor_succ
        initializer := h.initializer_succ }

end Evaluates

end Flowgraph.Constant
