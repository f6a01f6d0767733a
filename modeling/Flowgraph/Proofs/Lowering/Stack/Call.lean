import Flowgraph.Proofs.Lowering.Stack.Statement

/-! # The stack of a call

The arguments of a call are lowered one after another, each above what was pushed for those
before it. The call takes what was pushed, in the order of the arguments.
-/

namespace Flowgraph.Lowering.Stack

open Flowgraph.Graph (Code Fragment Op Use)
open Flowgraph.Tree (Arguments Expr MemberRef NamedArgument Stmt)

/-- Code was added, and the stack is the same. -/
structure Idles (s t : State) : Prop extends Kept s.code t.code where
  stack : t.stack = s.stack

theorem Idles.refl (s : State) : Idles s s := ⟨.refl s.code, rfl⟩

theorem Idles.trans {s t u : State} (h : Idles s t) (g : Idles t u) : Idles s u :=
  ⟨h.toKept.trans g.toKept, g.stack.trans h.stack⟩

/-- From `s` to `t`, the arguments `ms` are lowered in turn, each above what was pushed for
those before it, and the value that it leaves on the stack is pushed. The instructions that
push them are `ps`. -/
inductive Passes (env : Env) : List (LowerM Fragment) → State → List Nat → State → Prop
  | none {s t} (idle : Idles s t) : Passes env [] s [] t
  | next {m ms s s' f t v u x ps w} (idle : Idles s s') (run : runFrom env m s' = (.ok f, t))
      (value : t.stack = v :: s'.stack) (lowered : Kept s'.code t.code) (kept : Kept t.code u.code)
      (stack : u.stack = x :: s'.stack) (bound : x.definition < u.code.size)
      (pushed : u.code.op x.definition = .pushArgument (some v.definition))
      (rest : Passes env ms u ps w) : Passes env (m :: ms) s (x.definition :: ps) w

variable {env : Env} {s t u : State} {m : LowerM Fragment} {ms ms' : List (LowerM Fragment)}
  {ps ps' : List Nat} {call : List Use → Op} {f : Fragment}

namespace Passes

theorem after (hs : Idles s t) (h : Passes env ms t ps u) : Passes env ms s ps u := by
  cases h with
  | none ht => exact .none (hs.trans ht)
  | next ht run value hl hk stack bound pushed rest =>
    exact .next (hs.trans ht) run value hl hk stack bound pushed rest

theorem append (h : Passes env ms s ps t) (g : Passes env ms' t ps' u) :
    Passes env (ms ++ ms') s (ps ++ ps') u := by
  induction h with
  | none hs => exact g.after hs
  | next hs run value hl hk stack bound pushed _ ih =>
    exact .next hs run value hl hk stack bound pushed (ih g)

theorem before (h : Passes env ms s ps t) (ht : Idles t u) : Passes env ms s ps u := by
  simpa using h.append (.none ht)

theorem length (h : Passes env ms s ps t) : ps.length = ms.length := by
  induction h with
  | none => rfl
  | next _ _ _ _ _ _ _ _ _ ih => simp [ih]

/-- What was pushed last is on top. -/
theorem stack (h : Passes env ms s ps t) : ∃ top : List StackValue, t.stack = top ++ s.stack ∧
    (top.map (·.definition)).reverse = ps := by
  induction h with
  | none hs => exact ⟨[], hs.stack, rfl⟩
  | @next _ _ _ _ _ _ _ _ x _ _ hs _ _ _ _ hu _ _ _ ih =>
    obtain ⟨top, htop, rfl⟩ := ih
    exact ⟨top ++ [x], by simp [htop, hu, hs.stack], by simp⟩

end Passes

/-! ## Pushing arguments -/

theorem idles_append (f g : Fragment) : Ends env (append f g) s fun _ t => Idles s t :=
  ends_append.mpr ⟨(Grown.append 0 f g s.code).toKept, rfl⟩

theorem ends_pushArgument {v : StackValue} {rest : List StackValue} (hs : s.stack = v :: rest) :
    Ends env pushArgument s fun _ t => Kept s.code t.code ∧ t.stack = ⟨s.code.size, none⟩ :: rest ∧
      s.code.size < t.code.size ∧ t.code.op s.code.size = .pushArgument (some v.definition) := by
  unfold pushArgument popUse pop
  rw [ends_bind, ends_bind, ends_bind, ends_get, hs]
  dsimp only
  rw [ends_bind, ends_modify, ends_pure, ends_pure, ends_bind, ends_modify, ends_define]
  exact ⟨kept_push _ _, rfl, by simp, Code.op_push_size⟩

theorem passes_push (hm : Tidy true m 0 1) (f : Fragment) :
    Ends env (chain f [m, pushArgument]) s fun _ t => ∃ p, Passes env [m] s [p] t := by
  have hrun := (hm.ends env s s.code.size s.stack le_rfl (carries_zero.mpr rfl)).ran
  refine hrun.bind ?_
  rintro g t ⟨⟨ht, hst⟩, run⟩
  obtain ⟨v, stack, hv, -, hrest⟩ := carries_succ.mp ht
  obtain rfl : stack = s.stack := carries_zero.mp hrest
  refine (idles_append f g).bind fun h t1 h1 => ?_
  refine (ends_pushArgument (h1.stack.trans hv)).bind ?_
  rintro g2 t2 ⟨hk, hstack, hlt, hop⟩
  refine (idles_append h g2).bind fun _ t3 h3 => ends_pure.mpr ⟨t1.code.size, ?_⟩
  exact .next (x := ⟨t1.code.size, none⟩) (.refl s) run hv hst.code.toKept
    ((h1.toKept.trans hk).trans h3.toKept) (h3.stack.trans hstack) (hlt.trans_le h3.size)
    ((h3.op _ hlt).trans hop) (.none (.refl t3))

theorem passes_pushes (hms : ∀ m ∈ ms, Tidy true m 0 1) (f : Fragment) :
    Ends env (chain f (ms.flatMap fun m => [m, pushArgument])) s fun _ t =>
      ∃ ps, Passes env ms s ps t := by
  induction ms generalizing f s with
  | nil => exact ends_pure.mpr ⟨[], .none (.refl s)⟩
  | cons m ms ih =>
    obtain ⟨hm, hms⟩ := List.forall_mem_cons.mp hms
    rw [List.flatMap_cons, chain_append]
    refine (passes_push hm f).bind ?_
    rintro g t ⟨p, hp⟩
    refine (ih hms g).mono ?_
    rintro _ u ⟨ps, hps⟩
    exact ⟨p :: ps, hp.append hps⟩

theorem passes_pushAll (hms : ∀ m ∈ ms, Tidy true m 0 1) (f : Fragment) :
    Ends env (chain f [pushAll ms]) s fun _ t => ∃ ps, Passes env ms s ps t := by
  refine (passes_pushes hms .empty).bind ?_
  rintro g t ⟨ps, hps⟩
  refine (idles_append f g).bind ?_
  exact fun _ u hu => ends_pure.mpr ⟨ps, hps.before hu⟩

/-! ## Calls -/

/-- Between `s` and `t`, the arguments `ms` were lowered and pushed in turn, and there is a
call that takes what was pushed, in this order. -/
def Called (env : Env) (ms : List (LowerM Fragment)) (call : List Use → Op) (s t : State) : Prop :=
  ∃ first ps last i, Kept s.code first.code ∧ s.stack <:+ first.stack ∧ Passes env ms first ps last ∧
    Kept last.code t.code ∧ last.code.size ≤ i ∧ i < t.code.size ∧ t.code.op i = call (ps.map some)

theorem Called.kept (h : Called env ms call s t) (ht : Kept t.code u.code) : Called env ms call s u := by
  obtain ⟨first, ps, last, i, hs, hstack, hps, hk, hi, hlt, hop⟩ := h
  exact ⟨first, ps, last, i, hs, hstack, hps, hk.trans ht, hi, hlt.trans_le ht.size,
    (ht.op i hlt).trans hop⟩

theorem Called.after (hs : Kept s.code t.code) (hstack : s.stack <:+ t.stack)
    (h : Called env ms call t u) : Called env ms call s u := by
  obtain ⟨first, ps, last, i, hf, hf', hrest⟩ := h
  exact ⟨first, ps, last, i, hs.trans hf, hstack.trans hf', hrest⟩

theorem Passes.called (h : Passes env ms s ps t) {n : Nat} (hn : n = ms.length) (f : Fragment) :
    Ends env (chain f [do define (call (← takeArguments n))]) t fun _ u =>
      Called env ms call s u := by
  obtain ⟨top, htop, hps⟩ := h.stack
  obtain rfl : n = top.length := by
    rw [hn, ← h.length, ← hps, List.length_reverse, List.length_map]
  have htake : Ends env (do define (call (← takeArguments top.length))) t fun _ u =>
      Called env ms call s u := by
    refine (ends_takeArguments htop).bind ?_
    rintro us w ⟨rfl, -, hcode, -⟩
    have hus : (top.map fun v => some v.definition).reverse = ps.map some := by
      rw [← hps, List.map_reverse, List.map_map]
      rfl
    rw [hus, ends_define, hcode]
    exact ⟨s, ps, t, t.code.size, Kept.refl _, List.suffix_rfl, h, kept_push _ _, le_rfl,
      by simp, Code.op_push_size⟩
  refine htake.bind fun g w hw => (idles_append f g).bind fun _ u hu => ends_pure.mpr ?_
  exact hw.kept hu.toKept

theorem called_pushes (hms : ∀ m ∈ ms, Tidy true m 0 1) (f : Fragment) :
    Ends env (chain f (ms.flatMap (fun m => [m, pushArgument]) ++
      [do define (call (← takeArguments ms.length))])) s fun _ t => Called env ms call s t := by
  rw [chain_append]
  refine (passes_pushes hms f).bind ?_
  rintro g t ⟨ps, hps⟩
  exact hps.called rfl g

theorem called_pushAll (hms : ∀ m ∈ ms, Tidy true m 0 1) {n : Nat} (hn : n = ms.length) (f : Fragment) :
    Ends env (chain f [pushAll ms, do define (call (← takeArguments n))]) s fun _ t =>
      Called env ms call s t := by
  rw [← List.singleton_append, chain_append]
  refine (passes_pushAll hms f).bind ?_
  rintro g t ⟨ps, hps⟩
  exact hps.called hn g

/-- What the call is made on goes first. -/
theorem called_receiver (hm : Tidy true m 0 1) (hms : ∀ m ∈ ms, Tidy true m 0 1) {n : Nat}
    (hn : n = ms.length + 1) (f : Fragment) :
    Ends env (chain f [m, pushArgument, pushAll ms, do define (call (← takeArguments n))]) s fun _ t =>
      Called env (m :: ms) call s t := by
  change Ends env (chain f ([m, pushArgument] ++ ([pushAll ms] ++ [_]))) s _
  rw [chain_append]
  refine (passes_push hm f).bind ?_
  rintro g t ⟨p, hp⟩
  rw [chain_append]
  refine (passes_pushAll hms g).bind ?_
  rintro h u ⟨ps, hps⟩
  exact (hp.append hps).called hn h

theorem kept_drop : Ends env drop s fun _ t => Kept s.code t.code := by
  unfold drop pop
  rw [ends_bind, ends_bind, ends_get]
  split
  · exact ends_inconsistent
  · rw [ends_bind, ends_modify, ends_pure, ends_bind, ends_get]
    split
    · exact ends_pure.mpr (.refl _)
    · exact ends_perform.mpr (kept_push _ _)

/-- A call whose result is dropped. -/
theorem called_dropped (hm : Tidy true m 0 1) (hms : ∀ m ∈ ms, Tidy true m 0 1) {n : Nat}
    (hn : n = ms.length + 1) (f : Fragment) :
    Ends env (chain f [m, pushArgument, pushAll ms, do define (call (← takeArguments n)), drop]) s
      fun _ t => Called env (m :: ms) call s t := by
  change Ends env (chain f ([m, pushArgument, pushAll ms, _] ++ [drop])) s _
  rw [chain_append]
  refine (called_receiver hm hms hn f).bind fun g t h => ?_
  refine kept_drop.bind fun d u hu => (idles_append g d).bind fun _ w hw => ends_pure.mpr ?_
  exact h.kept (hu.trans hw.toKept)

/-! ## Expressions -/

/-- The arguments of a call in order, named ones last. -/
def lowered (args : Arguments) : List (LowerM Fragment) :=
  args.positional.map lowerExpr ++ args.named.map fun a => lowerExpr a.value

theorem lowerAll_eq : ∀ es : List Expr, lowerAll es = es.map lowerExpr
  | [] => rfl
  | _ :: es => congrArg _ (lowerAll_eq es)

theorem lowerNamed_eq : ∀ es : List NamedArgument, lowerNamed es = es.map fun a => lowerExpr a.value
  | [] => rfl
  | ⟨_, _⟩ :: es => congrArg _ (lowerNamed_eq es)

theorem lowered_eq (args : Arguments) :
    lowerAll args.positional ++ lowerNamed args.named = lowered args := by
  rw [lowerAll_eq, lowerNamed_eq, lowered]

theorem length_lowered (args : Arguments) : args.count = (lowered args).length := by
  simp [lowered, Arguments.count]

theorem tidy_lowerExpr (e : Expr) : Tidy true (lowerExpr e) 0 1 :=
  (made_lowerExpr (tidy true) e fun _ => trivial).made

theorem tidy_lowered (args : Arguments) : ∀ m ∈ lowered args, Tidy true m 0 1 := by
  intro m hm
  rcases List.mem_append.mp hm with hm | hm
  · obtain ⟨e, -, rfl⟩ := List.mem_map.mp hm
    exact tidy_lowerExpr e
  · obtain ⟨a, -, rfl⟩ := List.mem_map.mp hm
    exact tidy_lowerExpr a.value

/-- The code of the expression passes its operands in order. -/
def Passing (env : Env) (s t : State) : Expr → Prop
  | .methodCall _ receiver name args => Called env (lowerExpr receiver :: lowered args)
      (fun us => .instanceCall name us args.names) s t
  | .staticCall _ _ args false => (∃ id, Called env (lowered args)
      (fun us => .staticCall id us args.names) s t) ∨
      ∃ left right first f last, args.positional = [left, right] ∧ first.stack = s.stack ∧
        runFrom env (inOrder [lowerExpr left, lowerExpr right, strictCompare false]) first =
          (.ok f, last) ∧ t.code = last.code
  | .construct _ _ args false => ∃ id, Called env (nullConstant :: lowered args)
      (fun us => .staticCall id us args.names) s t ∨
      ∃ i c object first, Kept s.code first.code ∧ first.code.op i = .allocateObject c ∧
        first.stack = ⟨i, some object⟩ :: s.stack ∧
        Called env (loadLocal object :: lowered args) (fun us => .staticCall id us args.names) first t
  | .propertyGet _ receiver name => Called env [lowerExpr receiver]
      (fun us => .instanceCall (Symbols.getterName name) us []) s t
  | .isType _ operand name => Called env [lowerExpr operand, typeConstant name, boolConstant false]
      (fun us => .instanceCall Symbols.instanceOfFunction us []) s t
  | .asType _ operand name => Called env [lowerExpr operand, typeConstant name]
      (fun us => .instanceCall Symbols.asFunction us []) s t
  | _ => True

theorem ends_at {α : Type} {m : LowerM α} {place : Position} {Q : α → State → Prop}
    (h : Ends env m { s with place } fun a t => Q a { t with place := s.place }) :
    Ends env (at_ place m) s Q := by
  unfold at_
  rw [ends_bind, ends_get, ends_bind, ends_modify]
  exact h.bind fun _ _ ht => ends_bind.mpr (ends_modify.mpr (ends_pure.mpr ht))

theorem aside {α : Type} (m : LowerM α) [hm : Within (Aside true) m] (s : State) :
    Ends env m s fun _ t => Idles s t :=
  (hm.ends env s).mono fun _ _ h => ⟨h.2.1 ▸ .refl _, h.1⟩

theorem passing_construct (place : Position) (target : MemberRef) (args : Arguments) :
    Ends env (construct place target args (lowered args)) s fun _ t =>
      Passing env s t (.construct place target args false) := by
  have hn := congrArg (· + 1) (length_lowered args)
  refine (aside _ s).bind fun id s1 h1 => (aside _ s1).bind fun _ s2 h2 =>
    (aside _ s2).bind fun t s3 h3 => ?_
  have h := (h1.trans h2).trans h3
  dsimp only
  split
  · refine (called_receiver inferInstance (tidy_lowered args) hn .empty).mono fun _ t ht => ?_
    exact ⟨id, .inl (ht.after h.toKept (h.stack ▸ List.suffix_rfl))⟩
  · unfold allocateObject makeTemporary
    rw [ends_bind, ends_define, ends_bind, ends_bind, ends_get]
    dsimp only
    rw [ends_bind, ends_modify, ends_pure]
    refine (called_dropped inferInstance (tidy_lowered args) hn _).mono fun _ t ht => ⟨id, .inr ?_⟩
    exact ⟨_, _, _, _, h.toKept.trans (kept_push _ _), Code.op_push_size, by rw [h.stack], ht⟩

theorem passing_callStatic (place : Position) (target : MemberRef) (args : Arguments) :
    Ends env (callStatic place target args (lowerAll args.positional) (lowerNamed args.named)) s
      fun _ t => Passing env s t (.staticCall place target args false) := by
  refine (aside _ s).bind fun id s1 h1 => (aside _ s1).bind fun _ s2 h2 =>
    (aside _ s2).bind fun t s3 h3 => ?_
  have h := (h1.trans h2).trans h3
  dsimp only
  split
  · rename_i left right _ hargs
    obtain ⟨l, r, hpositional, rfl, rfl⟩ : ∃ l r, args.positional = [l, r] ∧ lowerExpr l = left ∧
        lowerExpr r = right := by
      rw [lowerAll_eq] at hargs
      match hp : args.positional, hargs with
      | [l, r], rfl => exact ⟨l, r, rfl, rfl, rfl⟩
    refine (ends_of_forall fun _ _ => trivial).ran.mono fun f t ht => .inr ?_
    exact ⟨l, r, s3, f, t, hpositional, h.stack, ht.2, rfl⟩
  · rw [lowered_eq]
    refine (called_pushAll (tidy_lowered args) (length_lowered args) .empty).mono fun _ t ht => ?_
    exact .inl ⟨id, ht.after h.toKept (h.stack ▸ List.suffix_rfl)⟩

theorem passing_lowerExpr (e : Expr) : Ends env (lowerExpr e) s fun _ t => Passing env s t e := by
  cases e with
  | methodCall place receiver name args =>
    obtain ⟨positional, named⟩ := args
    refine ends_at ?_
    rw [lowered_eq ⟨positional, named⟩]
    exact called_receiver (tidy_lowerExpr receiver) (tidy_lowered _)
      (congrArg (· + 1) (length_lowered _)) .empty
  | staticCall place target args isConst =>
    obtain ⟨positional, named⟩ := args
    cases isConst with
    | true => exact ends_of_forall fun _ _ => trivial
    | false => exact ends_at (passing_callStatic place target ⟨positional, named⟩)
  | construct place target args isConst =>
    obtain ⟨positional, named⟩ := args
    cases isConst with
    | true => exact ends_of_forall fun _ _ => trivial
    | false => exact ends_at (lowered_eq ⟨positional, named⟩ ▸ passing_construct place target ⟨positional, named⟩)
  | propertyGet place receiver name =>
    have h : ∀ m ∈ [lowerExpr receiver], Tidy true m 0 1 := by simp [tidy_lowerExpr]
    exact ends_at (called_pushes h .empty)
  | isType place operand name =>
    have h : ∀ m ∈ [lowerExpr operand, typeConstant name, boolConstant false], Tidy true m 0 1 := by
      simpa using ⟨tidy_lowerExpr operand, inferInstance, inferInstance⟩
    exact ends_at (called_pushes h .empty)
  | asType place operand name =>
    have h : ∀ m ∈ [lowerExpr operand, typeConstant name], Tidy true m 0 1 := by
      simpa using ⟨tidy_lowerExpr operand, inferInstance⟩
    exact ends_at (called_pushes h .empty)
  | _ => exact ends_of_forall fun _ _ => trivial

theorem called_delegate (place : Position) (target : Nat) (args : Arguments) :
    Ends env (delegate place target args) s fun _ t => Called env (loadReceiver :: lowered args)
      (fun us => .staticCall target us args.names) s t := by
  have hn := congrArg (· + 1) (length_lowered args)
  have hcall : ∀ s : State, Ends env (do
      checkArguments place target args
      inOrder [loadReceiver, pushArgument, lowerArguments args,
        staticCall target (args.count + 1) args.names, drop]) s fun _ t =>
      Called env (loadReceiver :: lowered args) (fun us => .staticCall target us args.names) s t := by
    intro s
    refine (aside _ s).bind fun _ s1 h1 => ?_
    unfold lowerArguments
    rw [lowered_eq]
    refine (called_dropped inferInstance (tidy_lowered args) hn .empty).mono fun _ t ht => ?_
    exact ht.after h1.toKept (h1.stack ▸ List.suffix_rfl)
  unfold delegate
  refine (aside _ s).bind fun t s1 h1 => ?_
  dsimp only
  split
  · exact ends_bind.mpr ends_malformed
  · exact (hcall s1).mono fun _ t ht => ht.after h1.toKept (h1.stack ▸ List.suffix_rfl)

/-! ## The discipline -/

/-- One value was put on the stack and the frame is the same. What was added to the code
takes values that were put on the stack meanwhile. -/
structure Yielded (s t : State) : Prop where
  stack : ∃ v, t.stack = v :: s.stack ∧ Fresh s.code.size t.code v.definition
  frame : t.frame = s.frame
  code : Grown s.code.size s.code t.code

theorem yielded_lowerExpr (e : Expr) : Ends env (lowerExpr e) s fun _ t => Yielded s t := by
  refine ((tidy_lowerExpr e).ends env s _ s.stack le_rfl (carries_zero.mpr rfl)).mono ?_
  rintro _ t ⟨ht, hst⟩
  obtain ⟨v, stack, hv, hfresh, hrest⟩ := carries_succ.mp ht
  obtain rfl : stack = s.stack := carries_zero.mp hrest
  exact ⟨⟨v, hv, hfresh⟩, hst.frame rfl, hst.code⟩

/-- The finalizers of the try statements around a place, innermost first. -/
inductive Around : Finalizers → Prop
  | none : Around []
  | attempt {z : Finalizer} {fs : Finalizers} {within : List Nat} {finalizer : Stmt}
      (code : z.code = withReader (fun env => { env with within }) (lowerStmt fs finalizer))
      (outer : Around fs) : Around (z :: fs)

theorem Around.level {fs : Finalizers} (h : Around fs) : ∀ z ∈ fs, Level z.code := by
  induction h with
  | none => simp
  | attempt hz _ ih =>
    have hcode := hz ▸ (control.lowerStmt _ _ ih).reading _
    exact List.forall_mem_cons.mpr ⟨hcode, ih⟩

theorem stack_lowerStmt {fs : Finalizers} (hfs : Around fs) (c : Stmt) :
    Ends env (lowerStmt fs c) s fun _ t => t.stack = s.stack :=
  ((control.lowerStmt c fs hfs.level).tidy.ends env s 0 s.stack (Nat.zero_le _)
    (carries_zero.mpr rfl)).mono fun _ _ h => carries_zero.mp h.1

/-- A call with a call, a choice and another call as its arguments. -/
def nestedCall : Expr :=
  .methodCall {} (.null {}) "m"
    ⟨[.methodCall {} (.null {}) "n" ⟨[.bool {} true], []⟩,
      .conditional {} (.bool {} true) (.null {}) (.int {} 1)], [⟨"x", .propertyGet {} (.int {} 2) "k"⟩]⟩

def nestedEnv : Env where
  settings := {}
  function := 0
  analysis := {}
  layout := default
  this := none

def nestedState : State where
  store := { table := {} }
  code := #[]
  nextBlock := 1
  place := {}
  stack := [⟨0, none⟩]

end Flowgraph.Lowering.Stack
