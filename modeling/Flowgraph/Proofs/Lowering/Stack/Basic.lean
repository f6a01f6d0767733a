import Flowgraph.Proofs.Lowering.Discipline

/-! # The stack

Each step leaves the stack below the values that it takes as it is, names included, and what
it emits takes no other values than those and its own. So an expression leaves one value above
the stack that it found.
-/

namespace Flowgraph.Graph.Code

theorem op_modify (d : Code) (i k : Nat) {f : Instruction → Instruction}
    (hf : ∀ x, (f x).op = x.op) : Code.op (d.modify i f) k = d.op k := by
  unfold Code.op Code.get
  simp only [Array.getD_eq_getD_getElem?, Array.getElem?_modify]
  split
  · cases d[k]? with
    | none => rfl
    | some x => exact hf x
  · rfl

end Flowgraph.Graph.Code

namespace Flowgraph.Lowering.Stack

open Flowgraph.Graph (Code Fragment Op Use)
open Scoping (Variable)

/-- The value was put on the stack since there were `base` instructions. -/
structure Fresh (base : Nat) (c : Code) (i : Nat) : Prop where
  base : base ≤ i
  bound : i < c.size
  value : (c.op i).isDefinition = true ∨ (c.op i).isTerminator = true

/-- Instructions were added to the code, and those there were are the same. -/
structure Kept (c d : Code) : Prop where
  size : c.size ≤ d.size
  op : ∀ i < c.size, d.op i = c.op i

/-- What was added to the code takes such values only. -/
structure Grown (base : Nat) (c d : Code) : Prop extends Kept c d where
  inputs : ∀ k, c.size ≤ k → k < d.size → ∀ u ∈ (d.op k).inputs, ∃ i < k, u = some i ∧ Fresh base d i

/-- Above `rest`, there are `n` such values on the stack. -/
def Carries (base : Nat) (rest : List StackValue) (n : Nat) (s : State) : Prop :=
  ∃ top, s.stack = top ++ rest ∧ top.length = n ∧ ∀ v ∈ top, Fresh base s.code v.definition

/-- The code has grown, and the frame is kept if it has to be. -/
structure Moved (framed : Bool) (base : Nat) (s t : State) : Prop where
  code : Grown base s.code t.code
  frame : framed = true → t.frame = s.frame

/-- The step takes `p` values from the stack and leaves `q` above the rest. -/
class Tidy {α : Type} (framed : Bool) (m : LowerM α) (p q : outParam Nat) : Prop where
  ends : ∀ env s base rest, base ≤ s.code.size → Carries base rest p s →
    Ends env m s fun _ t => Carries base rest q t ∧ Moved framed base s t

section Tidy

variable {α β : Type} {framed : Bool} {env : Env} {s t u : State} {base n p q p' q' : Nat}
  {rest : List StackValue} {c d : Code} {i : Nat} {op : Op}

theorem Kept.refl (c : Code) : Kept c c := ⟨le_rfl, fun _ _ => rfl⟩

theorem Kept.trans {e : Code} (h : Kept c d) (g : Kept d e) : Kept c e :=
  ⟨h.size.trans g.size, fun i hi => (g.op i (hi.trans_le h.size)).trans (h.op i hi)⟩

theorem kept_push (c : Code) (x : Graph.Instruction) : Kept c (c.push x) :=
  ⟨by simp, fun _ hi => Code.op_push_of_lt hi⟩

theorem Fresh.kept (h : Fresh base c i) (hk : Kept c d) : Fresh base d i :=
  ⟨h.base, h.bound.trans_le hk.size, hk.op i h.bound ▸ h.value⟩

theorem Grown.refl (base : Nat) (c : Code) : Grown base c c :=
  ⟨.refl c, fun _ hk hk' => absurd hk' (Nat.not_lt.mpr hk)⟩

theorem Grown.trans {e : Code} (h : Grown base c d) (g : Grown base d e) : Grown base c e where
  toKept := h.toKept.trans g.toKept
  inputs k hk hk' u hu := by
    by_cases hd : k < d.size
    · rw [g.op k hd] at hu
      obtain ⟨i, hi, rfl, hfresh⟩ := h.inputs k hk hd u hu
      exact ⟨i, hi, rfl, hfresh.kept g.toKept⟩
    · exact g.inputs k (Nat.le_of_not_lt hd) hk' u hu

theorem Grown.push {x : Graph.Instruction}
    (h : ∀ u ∈ x.op.inputs, ∃ i, u = some i ∧ Fresh base c i) : Grown base c (c.push x) := by
  refine ⟨kept_push c x, fun k hk hk' u hu => ?_⟩
  obtain rfl : k = c.size := by rw [Array.size_push] at hk'; omega
  rw [Code.op_push_size] at hu
  obtain ⟨i, rfl, hi⟩ := h u hu
  exact ⟨i, hi.bound, rfl, hi.kept (kept_push c x)⟩

theorem Grown.append (base : Nat) (f g : Fragment) (c : Code) : Grown base c (f.append g c).2 := by
  have hlink (i j : Nat) : Grown base c (c.link i j) := by
    have hop (k : Nat) : (c.link i j).op k = c.op k := by
      unfold Code.link
      rw [Code.op_modify, Code.op_modify] <;> exact fun _ => rfl
    exact ⟨⟨by simp, fun k _ => hop k⟩, fun k hk hk' => absurd hk (by simpa using hk')⟩
  unfold Fragment.append
  split
  · exact .refl base c
  · exact hlink _ _
  · exact .refl base c

theorem Moved.trans (h : Moved framed base s t) (g : Moved framed base t u) : Moved framed base s u :=
  ⟨h.code.trans g.code, fun hf => (g.frame hf).trans (h.frame hf)⟩

theorem Carries.moved (h : Carries base rest n s) (hs : t.stack = s.stack)
    (hm : Grown base s.code t.code) : Carries base rest n t := by
  obtain ⟨top, htop, hlen, hfresh⟩ := h
  exact ⟨top, hs.trans htop, hlen, fun v hv => (hfresh v hv).kept hm.toKept⟩

theorem carries_zero : Carries base rest 0 s ↔ s.stack = rest := by
  constructor
  · rintro ⟨top, htop, hlen, -⟩
    rw [htop, List.length_eq_zero_iff.mp hlen, List.nil_append]
  · exact fun h => ⟨[], h, rfl, nofun⟩

theorem carries_add {m : Nat} : Carries base rest (m + n) s ↔ ∃ low : List StackValue,
    low.length = n ∧ (∀ v ∈ low, Fresh base s.code v.definition) ∧ Carries base (low ++ rest) m s := by
  constructor
  · rintro ⟨top, htop, hlen, hfresh⟩
    refine ⟨top.drop m, by simp [hlen], fun v hv => hfresh v (List.mem_of_mem_drop hv), top.take m,
      ?_, by simp [hlen], fun v hv => hfresh v (List.mem_of_mem_take hv)⟩
    rw [← List.append_assoc, List.take_append_drop, htop]
  · rintro ⟨low, hlow, hfresh, top, htop, hlen, hfresh'⟩
    refine ⟨top ++ low, by rw [htop, List.append_assoc], by simp [hlen, hlow], ?_⟩
    exact List.forall_mem_append.mpr ⟨hfresh', hfresh⟩

theorem carries_succ : Carries base rest (n + 1) s ↔ ∃ v stack, s.stack = v :: stack ∧
    Fresh base s.code v.definition ∧ Carries base rest n { s with stack } := by
  constructor
  · rintro ⟨_ | ⟨v, top⟩, htop, hlen, hfresh⟩
    · cases hlen
    · exact ⟨v, _, htop, hfresh v (by simp), top, rfl, by simpa using hlen,
        fun x hx => hfresh x (by simp [hx])⟩
  · rintro ⟨v, stack, hs, hv, top, htop, hlen, hfresh⟩
    obtain rfl : stack = top ++ rest := htop
    exact ⟨v :: top, hs, by simp [hlen], List.forall_mem_cons.mpr ⟨hv, hfresh⟩⟩

/-! ## Rules -/

theorem Tidy.bind {m : LowerM α} {k : α → LowerM β} (hm : Tidy framed m p q)
    (hk : ∀ a, Tidy framed (k a) p' q') :
    Tidy framed (m >>= k) (p + (p' - q)) (q' + (q - p')) := by
  refine ⟨fun env s base rest hbase h => ?_⟩
  obtain ⟨low, hlow, hfresh, h⟩ := carries_add.mp h
  refine (hm.ends env s base _ hbase h).bind fun a t ⟨ht, hst⟩ => ?_
  have ht := carries_add.mpr ⟨low, hlow, fun v hv => (hfresh v hv).kept hst.code.toKept, ht⟩
  rw [show q + (p' - q) = p' + (q - p') by omega] at ht
  obtain ⟨low, hlow, hfresh, ht⟩ := carries_add.mp ht
  refine ((hk a).ends env t base _ (hbase.trans hst.code.size) ht).mono fun b u ⟨hu, htu⟩ => ?_
  exact ⟨carries_add.mpr ⟨low, hlow, fun v hv => (hfresh v hv).kept htu.code.toKept, hu⟩, hst.trans htu⟩

theorem Tidy.cast {m : LowerM α} (h : Tidy framed m p q) (hp : p = p') (hq : q = q') :
    Tidy framed m p' q' := hp ▸ hq ▸ h

theorem Tidy.then {m : LowerM α} {k : α → LowerM β} (hm : Tidy framed m p q)
    (hk : ∀ a, Tidy framed (k a) 0 0) : Tidy framed (m >>= k) p q :=
  (hm.bind hk).cast (by omega) (by omega)

theorem Tidy.after {m : LowerM α} {k : α → LowerM β} (hm : Tidy framed m 0 0)
    (hk : ∀ a, Tidy framed (k a) p q) : Tidy framed (m >>= k) p q :=
  (hm.bind hk).cast (by omega) (by omega)

theorem Tidy.over {m : LowerM α} {k : α → LowerM β} {r : Nat} (hm : Tidy framed m p q)
    (hk : ∀ a, Tidy framed (k a) q r) : Tidy framed (m >>= k) p r :=
  (hm.bind hk).cast (by omega) (by omega)

theorem tidy_stop {m : LowerM α} (h : ∀ env s Q, Ends env m s Q) : Tidy framed m p q :=
  ⟨fun env s _ _ _ _ => h env s _⟩

/-- Nothing is changed on the stack or in the code, and the frame is kept if it has to be. -/
def Aside (framed : Bool) (s t : State) : Prop :=
  t.stack = s.stack ∧ t.code = s.code ∧ (framed = true → t.frame = s.frame)

instance : Calm (Aside framed) where
  refl _ := ⟨rfl, rfl, fun _ => rfl⟩
  trans h g := ⟨g.1.trans h.1, g.2.1.trans h.2.1, fun hf => (g.2.2 hf).trans (h.2.2 hf)⟩
  turn _ _ _ := ⟨rfl, rfl, fun _ => rfl⟩

instance : Carefree (Aside framed) := ⟨fun _ _ _ => ⟨rfl, rfl, fun _ => rfl⟩⟩

theorem Aside.moved (h : Aside framed s t) : Moved framed base s t :=
  ⟨h.2.1 ▸ .refl base s.code, h.2.2⟩

instance (priority := 1100) {m : LowerM α} [hm : Within (Aside framed) m] : Tidy framed m 0 0 :=
  ⟨fun env s _ _ _ h => (hm.ends env s).mono fun _ _ ht => ⟨h.moved ht.1 ht.moved.code, ht.moved⟩⟩

instance {f g : Fragment} : Tidy framed (append f g) 0 0 :=
  ⟨fun _ s base _ _ h => ends_append.mpr ⟨h.moved rfl (.append base f g s.code),
    .append base f g s.code, fun _ => rfl⟩⟩

/-! ## Instructions -/

/-- The values `us` were taken from the stack. -/
structure Took (base : Nat) (rest : List StackValue) (n : Nat) (s : State) (us : List Use)
    (t : State) : Prop where
  carries : Carries base rest n t
  fresh : ∀ u ∈ us, ∃ i, u = some i ∧ Fresh base s.code i
  code : t.code = s.code
  frame : t.frame = s.frame

theorem took_none (h : Carries base rest n s) : Took base rest n s [] s := ⟨h, nofun, rfl, rfl⟩

section Took

variable {us : List Use} {origin : Option Graph.Origin}

theorem Took.popUse (h : Took base rest (n + 1) s us t) :
    Ends env popUse t fun u t' => Took base rest n s (u :: us) t' := by
  obtain ⟨v, stack, hs, hv, hc⟩ := carries_succ.mp h.carries
  unfold Lowering.popUse pop
  rw [ends_bind, ends_bind, ends_get, hs]
  dsimp only
  rw [ends_bind, ends_modify, ends_pure, ends_pure]
  exact ⟨hc, List.forall_mem_cons.mpr ⟨⟨_, rfl, h.code ▸ hv⟩, h.fresh⟩, h.code, h.frame⟩

theorem Took.perform (h : Took base rest n s us t) (hin : op.inputs ⊆ us) :
    Ends env (perform op origin) t fun _ t' => Carries base rest n t' ∧ Moved framed base s t' := by
  have hg := Grown.push (x := { op, origin, within := env.within }) fun u hu => h.fresh u (hin hu)
  rw [ends_perform, h.code]
  exact ⟨h.carries.moved rfl (h.code ▸ hg), hg, fun _ => h.frame⟩

theorem Took.define (h : Took base rest n s us t) (hbase : base ≤ s.code.size) (hin : op.inputs ⊆ us)
    (hv : op.isDefinition = true ∨ op.isTerminator = true) :
    Ends env (define op origin) t fun _ t' =>
      Carries base rest (n + 1) t' ∧ Moved framed base s t' := by
  have hg := Grown.push (x := { op, origin, within := env.within, temp := t.nextTemp }) fun u hu =>
    h.fresh u (hin hu)
  rw [ends_define, h.code]
  exact ⟨carries_succ.mpr ⟨_, _, rfl, ⟨hbase, by simp, by simpa using hv⟩,
    h.carries.moved rfl (h.code ▸ hg)⟩, hg, fun _ => h.frame⟩

end Took

theorem tidy_define {origin : Option Graph.Origin} (hin : op.inputs = [])
    (hv : op.isDefinition = true) : Tidy framed (define op origin) 0 1 :=
  ⟨fun _ _ _ _ hbase h => (took_none h).define hbase (by simp [hin]) (.inl hv)⟩

theorem tidy_perform {origin : Option Graph.Origin} (hin : op.inputs = []) :
    Tidy framed (perform op origin) 0 0 :=
  ⟨fun _ _ _ _ _ h => (took_none h).perform (by simp [hin])⟩

theorem tidy_unary {op : Use → Op} {origin : Option Graph.Origin} (hin : ∀ u, (op u).inputs = [u])
    (hv : ∀ u, (op u).isDefinition = true ∨ (op u).isTerminator = true) :
    Tidy framed (popUse >>= fun u => define (op u) origin) 1 1 :=
  ⟨fun _ _ _ _ hbase h => (took_none h).popUse.bind fun u _ hu =>
    hu.define hbase (by simp [hin]) (hv u)⟩

instance : Tidy framed drop 1 0 := by
  refine ⟨fun env s base rest hbase h => ?_⟩
  obtain ⟨v, stack, hs, hv, h⟩ := carries_succ.mp h
  unfold drop pop
  rw [ends_bind, ends_bind, ends_get, hs]
  dsimp only
  rw [ends_bind, ends_modify, ends_pure, ends_bind, ends_get]
  split
  · exact ends_pure.mpr ⟨h, .refl base s.code, fun _ => rfl⟩
  · have htook : Took base rest 0 s [some v.definition] { s with stack } :=
      ⟨h, by simpa using hv, rfl, rfl⟩
    exact htook.perform (by simp [Op.inputs])

instance : Tidy framed makeTemporary 1 1 := by
  refine ⟨fun env s base rest hbase h => ?_⟩
  obtain ⟨v, stack, hs, hv, h⟩ := carries_succ.mp h
  unfold makeTemporary
  rw [ends_bind, ends_get, hs]
  dsimp only
  rw [ends_bind, ends_modify, ends_pure]
  exact ⟨carries_succ.mpr ⟨_, _, rfl, hv, h⟩, .refl base s.code, fun _ => rfl⟩

/-- The arguments are taken in the order in which they were pushed. -/
theorem ends_popArguments {args : List Use} {top : List StackValue} (hs : s.stack = top ++ rest) :
    Ends env (popArguments top.length args) s fun us t =>
      us = (top.map fun v => some v.definition).reverse ++ args ∧ t = { s with stack := rest } := by
  induction top generalizing s args with
  | nil =>
    obtain rfl : s.stack = rest := hs
    exact ends_pure.mpr ⟨rfl, rfl⟩
  | cons v top ih =>
    rw [List.length_cons]
    unfold popArguments pop
    rw [ends_bind, ends_bind, ends_get, hs]
    dsimp only [List.cons_append]
    rw [ends_bind, ends_modify, ends_pure, ends_bind, ends_get]
    dsimp only
    split
    · refine (ih rfl).mono ?_
      rintro us t ⟨rfl, rfl⟩
      simp
    · exact ends_inconsistent

theorem ends_takeArguments {top : List StackValue} (hs : s.stack = top ++ rest) :
    Ends env (takeArguments top.length) s fun us t =>
      us = (top.map fun v => some v.definition).reverse ∧ t.stack = rest ∧ t.code = s.code ∧
        t.frame = s.frame := by
  have hpop : Ends env (do
      let args ← popArguments top.length []
      modify fun s => { s with pendingArguments := s.pendingArguments - top.length }
      return args) s fun us t => us = (top.map fun v => some v.definition).reverse ∧
        t.stack = rest ∧ t.code = s.code ∧ t.frame = s.frame := by
    refine (ends_popArguments hs).bind ?_
    rintro us t ⟨rfl, rfl⟩
    rw [ends_bind, ends_modify, ends_pure]
    exact ⟨by simp, rfl, rfl, rfl⟩
  unfold takeArguments
  rw [ends_bind, ends_get]
  dsimp only
  split
  · exact ends_bind.mpr ends_inconsistent
  · exact hpop

theorem Carries.takeArguments (h : Carries base rest n s) :
    Ends env (takeArguments n) s fun us t => Took base rest 0 s us t := by
  obtain ⟨top, hs, rfl, hfresh⟩ := h
  refine (ends_takeArguments hs).mono ?_
  rintro us t ⟨rfl, hstack, hcode, hframe⟩
  refine ⟨carries_zero.mpr hstack, fun u hu => ?_, hcode, hframe⟩
  obtain ⟨v, hv, rfl⟩ := List.mem_map.mp (List.mem_reverse.mp hu)
  exact ⟨_, rfl, hfresh v hv⟩

/-- Every step leaves the stack below its own values as it is. -/
def tidy (framed : Bool) : Calculus (Aside framed) where
  Makes m p q := Tidy framed m p q
  Continues k p q := ∀ f, Tidy framed (k f) p q
  Closes := True
  throws := true
  empty := inferInstance
  stop := tidy_stop
  bind hm hk := hm.bind hk
  passive hk := .after inferInstance hk
  pure _ := inferInstance
  trans hk hk' f := (hk f).bind hk'
  append hm f := hm.then inferInstance
  rest hk f := .after inferInstance fun a => hk a f
  above hk := .then inferInstance hk
  named hm hk := (hm.bind fun f => Tidy.bind inferInstance fun v => hk v f).cast (by omega) (by omega)
  define _ hv hin := tidy_define hin hv
  perform _ hin := tidy_perform hin
  unary _ hv hin := tidy_unary hin fun u => .inl (hv u)
  storeField _ _ := ⟨fun _ _ _ _ _ h => (took_none h).popUse.bind fun _ _ h => h.popUse.bind
    fun _ _ h => h.perform (by simp [Op.inputs])⟩
  storeStaticField _ := ⟨fun _ _ _ _ _ h => (took_none h).popUse.bind fun _ _ h =>
    h.perform (by simp [Op.inputs])⟩
  storeIndexed := ⟨fun _ _ _ _ _ h => (took_none h).popUse.bind fun _ _ h => h.popUse.bind
    fun _ _ h => h.popUse.bind fun _ _ h => h.perform (by simp [Op.inputs])⟩
  strictCompare _ := ⟨fun _ _ _ _ hbase h => (took_none h).popUse.bind fun _ _ h => h.popUse.bind
    fun _ _ h => h.define hbase (by simp [Op.inputs]) (.inl rfl)⟩
  staticCall _ _ _ _ := ⟨fun _ _ _ _ hbase h => h.takeArguments.bind fun _ _ h =>
    h.define hbase (by simp [Op.inputs]) (.inl rfl)⟩
  instanceCall _ _ _ _ := ⟨fun _ _ _ _ hbase h => h.takeArguments.bind fun _ _ h =>
    h.define hbase (by simp [Op.inputs]) (.inl rfl)⟩
  pushArgument := ⟨fun _ _ _ _ hbase h => (took_none h).popUse.bind fun _ t h => by
    have h : Took _ _ _ _ _ { t with pendingArguments := t.pendingArguments + 1 } :=
      ⟨h.carries, h.fresh, h.code, h.frame⟩
    exact ends_bind.mpr (ends_modify.mpr (h.define hbase (by simp [Op.inputs]) (.inl rfl)))⟩
  drop := inferInstance
  giveBack _ := ⟨fun _ _ _ _ _ h => (took_none h).popUse.bind fun _ _ h => ends_bind.mpr
    ((h.perform (by simp [Op.inputs])).mono fun _ _ h => ends_pure.mpr h)⟩
  throwException _ := ⟨fun _ _ _ _ hbase h => (took_none h).popUse.bind fun _ _ h => ends_bind.mpr
    ((h.define hbase (by simp [Op.inputs]) (.inr rfl)).mono fun _ _ h => ends_pure.mpr h)⟩

instance (priority := 800) {m : LowerM Fragment} [h : (tidy framed).Made m p q] :
    Tidy framed m p q := h.made

/-! ## Branches -/

instance (kind : Graph.BlockKind) (tryIndex : Int) : Tidy framed (emitBlock kind tryIndex) 0 0 := by
  refine ⟨fun env s base rest hbase h => ends_emitBlock.mpr ?_⟩
  have hg : Grown base s.code (s.code.push
      { op := .entry ⟨kind, s.nextBlock, tryIndex⟩, within := env.within }) := .push nofun
  exact ⟨h.moved rfl hg, hg, fun _ => rfl⟩

instance : Tidy framed makeTarget 0 0 := .after (m := currentTry) inferInstance inferInstance

instance : Tidy framed makeJoin 0 0 := .after (m := currentTry) inferInstance inferInstance

instance (target : Nat) (origin : Option Graph.Origin) :
    (tidy framed).Made (gotoJoin target origin) 0 0 :=
  have hgoto : Tidy framed (perform (.goto target) origin) 0 0 := tidy_perform rfl
  ⟨hgoto.then inferInstance⟩

/-- The two values stay as they are while the blocks behind the branch are made. -/
instance (negated : Bool) : Tidy framed (branchIfSame negated) 2 0 := by
  refine ⟨fun env s base rest hbase h => (took_none h).popUse.bind fun right s1 h1 =>
    h1.popUse.bind fun left s2 h2 => ?_⟩
  have hmake : Tidy framed makeTarget 0 0 := inferInstance
  have hs2 : Moved framed base s s2 := ⟨h2.code ▸ .refl base s.code, fun _ => h2.frame⟩
  refine (hmake.ends env s2 base rest (hbase.trans hs2.code.size) h2.carries).bind
    fun yes s3 ⟨h3, m3⟩ => ?_
  have hs3 := hs2.trans m3
  refine (hmake.ends env s3 base rest (hbase.trans hs3.code.size) h3).bind fun no s4 ⟨h4, m4⟩ => ?_
  have hs4 := hs3.trans m4
  have htook : Took base rest 0 s4 [left, right] s4 :=
    ⟨h4, fun u hu => (h2.fresh u hu).imp fun _ hi => ⟨hi.1, hi.2.kept hs4.code.toKept⟩, rfl, rfl⟩
  have hperform : Ends env (perform (.branch (comparison negated) left right yes no)) s4 fun _ t =>
      Carries base rest 0 t ∧ Moved framed base s4 t := htook.perform (by simp [Op.inputs])
  exact ends_bind.mpr (hperform.mono fun _ _ h => ends_pure.mpr ⟨h.1, hs4.trans h.2⟩)

theorem tidy_branchOn {m : LowerM Fragment} (hm : Tidy framed m 0 1) (negated : Bool) :
    Tidy framed (branchOn m negated) 1 0 :=
  hm.bind fun f => Tidy.then (m := branchIfSame negated) inferInstance fun b =>
    .after (m := append f b.code) inferInstance inferInstance

instance (negated : Bool) : Tidy framed (branchIfTrue negated) 1 0 := tidy_branchOn inferInstance negated

instance : Tidy framed branchIfNull 1 0 := tidy_branchOn inferInstance false

/-- What a step gives does not matter for the stack. -/
theorem tidy_of_map {m : LowerM α} {f : α → β} (h : Tidy framed (do return f (← m)) p q) :
    Tidy framed m p q :=
  ⟨fun env s base rest hbase hs => (ends_bind.mp (h.ends env s base rest hbase hs)).mono
    fun _ _ h => ends_pure.mp h⟩

theorem tidy_branchOnCondition {c : LowerM (Fragment × Bool)} (h : (tidy framed).Decides c) :
    Tidy framed (branchOnCondition c) 0 0 := by
  have hc : Tidy framed c 0 1 := tidy_of_map h.made
  have hbranch (x : Fragment × Bool) : Tidy framed (do
      let b ← branchIfTrue x.2
      return { b with code := ← append x.1 b.code }) 1 0 :=
    .then inferInstance fun b => .after (m := append x.1 b.code) inferInstance inferInstance
  exact hc.bind hbranch

theorem tidy_startingAt {ms : List (LowerM Fragment)}
    (h : (tidy framed).Adds (fun f => chain f ms) p q) (i : Nat) : Tidy framed (startingAt i ms) p q :=
  h.made _

instance {f : Fragment} {ms : List (LowerM Fragment)}
    [h : (tidy framed).Adds (fun f => chain f ms) p q] : Tidy framed (chain f ms) p q := h.made f

instance (head yes no : Fragment) : Tidy framed (joinArms head yes no) 0 1 :=
  .after (m := makeJoin) inferInstance fun join => .after (m := chain yes [gotoJoin join])
    inferInstance fun _ => .after (m := chain no [gotoJoin join]) inferInstance fun _ =>
      .after (m := expressionTemp) inferInstance inferInstance

instance (f : Fragment) : (tidy framed).Made (pure f) 0 0 :=
  ⟨inferInstanceAs (Tidy framed (pure f) 0 0)⟩

instance (tryIndex : Int) : (tidy framed).Made (rethrowException tryIndex) 2 1 :=
  ⟨⟨fun _ _ _ _ hbase h => (took_none h).popUse.bind fun _ _ h => h.popUse.bind fun _ _ h =>
    ends_bind.mpr ((h.define hbase (by simp [Op.inputs]) (.inr rfl)).mono fun _ _ h =>
      ends_pure.mpr h)⟩⟩

instance : (tidy framed).Complete where
  throws := rfl
  rethrow _ place := by
    refine .after (m := get) inferInstance fun s => ?_
    split
    · exact tidy_stop fun _ _ _ => ends_malformed
    · infer_instance
  conditional hc hm hm' := by
    have : (tidy framed).Made _ 0 1 := ⟨hm⟩
    have : (tidy framed).Made _ 0 1 := ⟨hm'⟩
    exact .after (m := expressionTemp) inferInstance fun temp =>
      (tidy_branchOnCondition hc).after fun b => .after (tidy_startingAt inferInstance b.yes) fun yes =>
        .after (tidy_startingAt inferInstance b.no) fun no => inferInstance
  logical isOr c c' hc hc' := by
    have hc' : Tidy framed c' 0 1 := tidy_of_map hc'.made
    have harms (temp : Variable) (head : Fragment) (i j : Nat) : Tidy framed (do
        let (f, negated) ← c'
        let right ← startingAt i
          [pure f, boolConstant true, strictCompare negated, storeLocal temp, drop]
        let short ← startingAt j [boolConstant isOr, storeLocal temp, drop]
        joinArms head right short) 0 1 := by
      have hrest (x : Fragment × Bool) : Tidy framed (do
          let right ← startingAt i
            [pure x.1, boolConstant true, strictCompare x.2, storeLocal temp, drop]
          let short ← startingAt j [boolConstant isOr, storeLocal temp, drop]
          joinArms head right short) 1 1 :=
        .over (tidy_startingAt inferInstance i) fun right =>
          .after (tidy_startingAt inferInstance j) fun short => inferInstance
      exact hc'.over hrest
    exact .after (m := expressionTemp) inferInstance fun temp =>
      (tidy_branchOnCondition hc).after fun b => by cases isOr <;> exact harms _ _ _ _
  ifNull {m m'} hm hm' := by
    have : (tidy framed).Made m 0 1 := ⟨hm⟩
    have : (tidy framed).Made m' 0 1 := ⟨hm'⟩
    have hbranch (temp : Variable) (f : Fragment) : Tidy framed (do
        let b ← branchIfNull
        let f ← append f b.code
        let right ← startingAt b.yes [m', storeLocal temp, drop]
        joinArms f right (.single b.no)) 1 1 :=
      .over (m := branchIfNull) inferInstance fun b => .after (m := append f b.code) inferInstance
        fun f => .after (tidy_startingAt inferInstance b.yes) fun right => inferInstance
    exact .after (m := expressionTemp) inferInstance fun temp =>
      .over (m := inOrder [m, storeLocal temp]) inferInstance (hbranch temp)

end Tidy

end Flowgraph.Lowering.Stack
