import Flowgraph.Lowering.Emit
import Flowgraph.Proofs.Constant.Key
import Flowgraph.Proofs.Graph.Dispatch
import Flowgraph.Proofs.Lowering.Ends

/-! # Code behind a fragment

What is linked when an instruction, a jump or a test is put behind the exit of a
fragment that nothing follows yet.
-/

namespace Flowgraph.Lowering

open Flowgraph.Graph (Code Fragment Instruction Op Origin)
open Scoping (Variable)

/-- Nothing follows the exit `x` of the fragment yet. -/
structure Loose (c : Code) (f : Fragment) (x : Nat) : Prop where
  nonempty : f.isEmpty = false
  exit : f.exit = some x
  bound : x < c.size
  next : (c.get x).next = none

/-- One instruction was put behind `x`. -/
structure Grown (c : Code) (x : Nat) (op : Op) (c' : Code) : Prop where
  kept : c.Extends c'
  op : c'.op c.size = op
  link : c'.Linked x c.size
  bound : c.size < c'.size
  next : (c'.get c.size).next = none

section Fragments

variable {c : Code} {f g : Fragment} {x e : Nat} {i : Instruction}

theorem append_entry (hf : f.isEmpty = false) : (f.append g c).1.entry = f.entry := by
  unfold Fragment.append
  split
  · rename_i he
    simp [Fragment.isEmpty, he] at hf
  · rfl
  · rfl

theorem append_isEmpty (hf : f.isEmpty = false) : (f.append g c).1.isEmpty = false := by
  rwa [Fragment.isEmpty, append_entry hf]

theorem append_empty {exit : Option Nat} (hf : f.isEmpty = false) :
    Fragment.append ⟨f.entry, exit⟩ .empty c = (⟨f.entry, exit⟩, c) := by
  obtain ⟨_ | e, _⟩ := f
  · cases hf
  · cases exit <;> rfl

theorem append_of_exit (hf : f.isEmpty = false) (hx : f.exit = some x) (he : g.entry = some e) :
    f.append g c = (⟨f.entry, g.exit⟩, c.link x e) := by
  obtain ⟨_ | _, _⟩ := f
  · cases hf
  · obtain rfl := hx
    simp [Fragment.append, he]

theorem Code.linked_link (hx : x < c.size) (he : e < c.size) : (c.link x e).Linked x e := by
  rw [Code.Linked, Code.get_link c x e x hx he, if_pos rfl]

theorem Loose.append (h : Loose c f x) (he : g.entry = some e) (hlt : e < c.size) :
    c.Extends (f.append g c).2 ∧ (f.append g c).2.Linked x e := by
  rw [append_of_exit h.nonempty h.exit he]
  refine ⟨Code.extends_of_ops (by simp) (fun k _ => Code.op_link h.bound hlt) fun k j hkj => ?_,
    Code.linked_link h.bound hlt⟩
  have hne : k ≠ x := by
    rintro rfl
    rw [Code.Linked, h.next] at hkj
    cases hkj
  rw [Code.Linked, Code.get_link c x e k h.bound hlt, if_neg hne]
  exact hkj

theorem Loose.grown (h : Loose c f x) (hi : i.next = none) :
    ∃ c', f.append (.single c.size) (c.push i) = (⟨f.entry, some c.size⟩, c') ∧
      Grown c x i.op c' := by
  have hsize : c.size < (c.push i).size := by simp
  have hpush : c.Extends (c.push i) :=
    Code.extends_of_ops (by simp) (fun _ => Code.op_push_of_lt) fun k j hkj => by
      rwa [Code.Linked, Code.get_push_of_lt (Code.lt_of_next hkj)]
  have h' : Loose (c.push i) f x :=
    ⟨h.nonempty, h.exit, h.bound.trans hsize, by rw [Code.get_push_of_lt h.bound, h.next]⟩
  obtain ⟨hkept, hlink⟩ := h'.append (g := .single c.size) rfl hsize
  rw [append_of_exit h.nonempty h.exit rfl] at hkept hlink ⊢
  refine ⟨_, rfl, hpush.trans hkept, ?_, hlink, by simp, ?_⟩
  · rw [Code.op_link h'.bound hsize, Code.op_push_size]
  · rw [Code.get_link _ x c.size _ h'.bound hsize, if_neg (Nat.ne_of_gt h.bound),
      Code.get_push_size, hi]

theorem Grown.loose {c' : Code} {op : Op} (h : Grown c x op c') (hf : f.isEmpty = false) :
    Loose c' ⟨f.entry, some c.size⟩ c.size :=
  ⟨hf, rfl, h.bound, h.next⟩

theorem Grown.passes {c' : Code} {op : Op} (h : Grown c x op c') (hf : Loose c f x)
    (hq : (c.op x).isQuiet = true) (answers : Nat → Bool) : c'.Passes answers x [] c.size :=
  Code.passes_link (by rwa [h.kept.isQuiet hf.bound]) h.link

end Fragments

section Pieces

variable {env : Env} {s : State} {f : Fragment} {x : Nat} {op : Op} {origin : Option Origin}
  {ms : List (LowerM Fragment)} {Q : Fragment → State → Prop}

theorem entry_chain : Ends env (chain f ms) s fun g _ => f.isEmpty = false → g.entry = f.entry := by
  induction ms generalizing f s with
  | nil => exact ends_pure.mpr fun _ => rfl
  | cons m ms ih =>
    unfold chain
    rw [ends_bind]
    refine ends_of_forall fun g s1 => ?_
    rw [ends_bind, ends_append]
    exact ih.mono fun h _ hh hf => (hh (append_isEmpty hf)).trans (append_entry hf)

theorem closed_chain : Ends env (chain f ms) s fun g _ =>
    f.isEmpty = false → f.exit = none → g = f := by
  induction ms generalizing f s with
  | nil => exact ends_pure.mpr fun _ _ => rfl
  | cons m ms ih =>
    unfold chain
    rw [ends_bind]
    refine ends_of_forall fun g s1 => ?_
    rw [ends_bind, ends_append]
    refine ih.mono fun h _ hh hf hx => ?_
    have heq : (f.append g s1.code).1 = f := by
      obtain ⟨_ | e, _⟩ := f
      · cases hf
      · obtain rfl := hx
        rfl
    rw [heq] at hh
    exact hh hf hx

theorem ends_forall_exit {α : Type} {m : LowerM α} {R : Nat → α → State → Prop}
    (h : ∀ x, f.exit = some x → Ends env m s (R x)) :
    Ends env m s fun a t => ∀ x, f.exit = some x → R x a t := by
  cases hx : f.exit with
  | none => exact ends_of_forall fun _ _ => nofun
  | some x =>
    refine (h x hx).mono fun a t hR y hy => ?_
    obtain rfl := Option.some.inj hy
    exact hR

theorem ends_append_linked {g : Fragment} :
    Ends env (append f g) s fun h s' => (f.isEmpty = false → h.entry = f.entry) ∧
      ∀ x e, Loose s.code f x → g.entry = some e → e < s.code.size →
        s.code.Extends s'.code ∧ s'.code.Linked x e :=
  ends_append.mpr ⟨append_entry, fun _ _ h => h.append⟩

theorem ends_define_append (h : Loose s.code f x)
    (hk : ∀ s' : State, Grown s.code x op s'.code → s'.stack = ⟨s.code.size, none⟩ :: s.stack →
      Ends env (chain ⟨f.entry, some s.code.size⟩ ms) s' Q) :
    Ends env (define op origin) s fun g s1 => Ends env (do let h ← append f g; chain h ms) s1 Q := by
  rw [ends_define, ends_bind, ends_append]
  obtain ⟨c', happend, hgrown⟩ := h.grown (i :=
    { op, origin, within := env.within, temp := s.nextTemp }) rfl
  dsimp only
  rw [happend]
  exact hk _ hgrown rfl

theorem ends_foldedConstant_append {e : Tree.Expr} (h : Loose s.code f x)
    (hk : ∀ v (s' : State), Graph.FoldsTo e v → Grown s.code x (.constant v) s'.code →
      s'.stack = ⟨s.code.size, none⟩ :: s.stack →
      Ends env (chain ⟨f.entry, some s.code.size⟩ ms) s' Q) :
    Ends env (chain f (foldedConstant e :: ms)) s Q := by
  unfold chain foldedConstant constant evaluating
  rw [ends_bind, ends_bind, ends_bind, ends_get]
  rcases hrun : (Constant.fold e).run s.store with ⟨result, store⟩
  dsimp only
  rw [ends_bind, ends_set]
  cases result with
  | error stop => exact ends_throw
  | ok v =>
    exact ends_pure.mpr (ends_define_append (s := { s with store }) h
      fun s' => hk v s' ⟨s.store, store, hrun⟩)

theorem ends_loadLocal_append {v : Variable} (h : Loose s.code f x)
    (hk : ∀ s' : State, Grown s.code x (.loadLocal v) s'.code →
      s'.stack = ⟨s.code.size, none⟩ :: s.stack →
      Ends env (chain ⟨f.entry, some s.code.size⟩ ms) s' Q) :
    Ends env (chain f (loadLocal v :: ms)) s Q := by
  unfold chain loadLocal
  rw [ends_bind]
  exact ends_define_append h hk

theorem ends_pop_cons {top : StackValue} {stack : List StackValue} {Q : StackValue → State → Prop}
    (hs : s.stack = top :: stack) (h : Q top { s with stack }) : Ends env pop s Q := by
  unfold pop
  rw [ends_bind, ends_get, hs]
  dsimp only
  rw [ends_bind, ends_modify, ends_pure]
  exact h

theorem ends_pushArgument_append {top : StackValue} {stack : List StackValue}
    (h : Loose s.code f x) (hs : s.stack = top :: stack)
    (hk : ∀ s' : State, Grown s.code x (.pushArgument (some top.definition)) s'.code →
      s'.stack = ⟨s.code.size, none⟩ :: stack →
      Ends env (chain ⟨f.entry, some s.code.size⟩ ms) s' Q) :
    Ends env (chain f (pushArgument :: ms)) s Q := by
  unfold chain pushArgument popUse
  rw [ends_bind, ends_bind, ends_bind]
  refine ends_pop_cons hs ?_
  rw [ends_pure, ends_bind, ends_modify]
  exact ends_define_append (s := { s with stack, pendingArguments := s.pendingArguments + 1 }) h hk

theorem ends_instanceCall_append {name : String} {names : List String} {right left : StackValue}
    {stack : List StackValue} (h : Loose s.code f x) (hs : s.stack = right :: left :: stack)
    (hk : ∀ s' : State, Grown s.code x
        (.instanceCall name [some left.definition, some right.definition] names) s'.code →
      s'.stack = ⟨s.code.size, none⟩ :: stack →
      Ends env (chain ⟨f.entry, some s.code.size⟩ ms) s' Q) :
    Ends env (chain f (instanceCall name 2 names :: ms)) s Q := by
  unfold chain instanceCall takeArguments
  rw [ends_bind, ends_bind, ends_bind, ends_get]
  dsimp only
  split
  · rw [ends_bind]
    exact ends_inconsistent
  · unfold popArguments
    rw [ends_bind, ends_bind]
    refine ends_pop_cons hs ?_
    rw [ends_bind, ends_get]
    split
    · unfold popArguments
      rw [ends_bind]
      refine ends_pop_cons rfl ?_
      rw [ends_bind, ends_get]
      split
      · unfold popArguments
        rw [ends_pure, ends_bind, ends_modify, ends_pure]
        exact ends_define_append
          (s := { s with stack, pendingArguments := s.pendingArguments - 2 }) h hk
      · exact ends_inconsistent
    · exact ends_inconsistent

theorem ends_storeLocal_drop {v : Variable} (h : Loose s.code f x) :
    Ends env (chain f [storeLocal v, drop]) s fun g s' => ∃ i, g = ⟨f.entry, some i⟩ ∧
      Grown s.code x (.storeLocal v (s.stack.head?.map (·.definition))) s'.code ∧
      i = s.code.size := by
  unfold chain storeLocal popUse
  rw [ends_bind, ends_bind, ends_bind]
  cases hs : s.stack with
  | nil =>
    unfold pop
    rw [ends_bind, ends_get, hs]
    exact ends_inconsistent
  | cons top stack =>
    refine ends_pop_cons hs ?_
    rw [ends_pure]
    refine ends_define_append (s := { s with stack }) h fun s' hgrown hs' => ?_
    unfold chain drop
    rw [ends_bind, ends_bind]
    refine ends_pop_cons hs' ?_
    rw [ends_bind, ends_get]
    have hop : s'.code.op s.code.size = .storeLocal v (some top.definition) := hgrown.op
    have hdrop : ((none : Option Variable).isNone &&
      !(Op.storeLocal v (some top.definition)).readsLocal) = true := rfl
    dsimp only
    rw [hop, if_pos hdrop, ends_pure, ends_bind, ends_append, append_empty h.nonempty]
    exact ends_pure.mpr ⟨s.code.size, rfl, hgrown, rfl⟩

theorem ends_jump {j : Nat} (h : Loose s.code f x) :
    Ends env (chain f [gotoJoin j origin]) s fun _ s' =>
      ∃ i, s'.code.Linked x i ∧ s'.code.op i = .goto j := by
  unfold chain gotoJoin
  rw [ends_bind, ends_bind, ends_perform, ends_pure, ends_bind, ends_append]
  obtain ⟨c', happend, hgrown⟩ := h.grown (i := { op := .goto j, origin, within := env.within }) rfl
  refine ends_pure.mpr ⟨s.code.size, ?_⟩
  have : (f.append (Fragment.single s.code.size).closed
      (s.code.push { op := .goto j, origin, within := env.within })).2 = c' := by
    rw [append_of_exit h.nonempty h.exit rfl] at happend ⊢
    exact congrArg Prod.snd happend
  dsimp only
  rw [this]
  exact ⟨hgrown.link, hgrown.op⟩

end Pieces

/-! ## Tests -/

section Tests

variable {env : Env} {s : State} {f : Fragment} {x i : Nat}

/-- From `x` on, the call at `i` was made, which compares the variable with the expression. -/
structure Compared (c c' : Code) (v : Variable) (e : Tree.Expr) (x i : Nat) : Prop where
  new : c.size ≤ i
  call : ∃ left right constant load k, Graph.FoldsTo e k ∧
    c'.op i = .instanceCall Symbols.equalsOperator [some left, some right] [] ∧
    c'.op left = .pushArgument (some constant) ∧ c'.op constant = .constant k ∧
    c'.op right = .pushArgument (some load) ∧ c'.op load = .loadLocal v
  passes : ∀ answers, c'.Passes answers x [] i

theorem ends_comparison (v : Variable) (e : Tree.Expr) (h : Loose s.code f x)
    (hq : (s.code.op x).isQuiet = true) :
    Ends env (chain f [foldedConstant e, pushArgument, loadLocal v, pushArgument,
      instanceCall Symbols.equalsOperator 2 []]) s fun g s' =>
      ∃ i stack, Compared s.code s'.code v e x i ∧ Loose s'.code g i ∧
        s'.stack = ⟨i, none⟩ :: stack := by
  refine ends_foldedConstant_append h fun k s1 hk g1 hs1 => ?_
  have l1 := g1.loose h.nonempty
  refine ends_pushArgument_append l1 hs1 fun s2 g2 hs2 => ?_
  have l2 := g2.loose h.nonempty
  refine ends_loadLocal_append l2 fun s3 g3 hs3 => ?_
  have l3 := g3.loose h.nonempty
  refine ends_pushArgument_append l3 hs3 fun s4 g4 hs4 => ?_
  have l4 := g4.loose h.nonempty
  rw [hs2] at hs4
  refine ends_instanceCall_append l4 hs4 fun s5 g5 hs5 => ?_
  have k4 := g4.kept.trans g5.kept
  have k3 := g3.kept.trans k4
  have k2 := g2.kept.trans k3
  refine ends_pure.mpr ⟨_, _, ⟨?_, ?_, ?_⟩, g5.loose h.nonempty, hs5⟩
  · exact g1.kept.size.trans (g2.kept.size.trans (g3.kept.size.trans g4.kept.size))
  · exact ⟨_, _, _, _, k, hk, g5.op, k3.op_eq g2.op rfl, k2.op_eq g1.op rfl,
      g5.kept.op_eq g4.op rfl, k4.op_eq g3.op rfl⟩
  · intro answers
    have p1 := (g1.passes h hq answers).mono k2
    have p2 := (g2.passes l1 (by rw [g1.op]; rfl) answers).mono k3
    have p3 := (g3.passes l2 (by rw [g2.op]; rfl) answers).mono k4
    have p4 := (g4.passes l3 (by rw [g3.op]; rfl) answers).mono g5.kept
    have p5 := g5.passes l4 (by rw [g4.op]; rfl) answers
    exact (((p1.trans p2).trans p3).trans p4).trans p5

theorem key_intern (p : Constant.Pool) (make : Nat → Constant.Value) :
    (p.intern make).1.key = (make (p.size + 1)).key := by
  unfold Constant.Pool.intern
  dsimp only
  split
  · rename_i v hv
    exact Constant.Key.text_injective (by simpa using List.find?_some hv)
  · rfl

theorem link_branch (c : Code) (a yes no b : Instruction) :
    let c' := Code.link ((((c.push a).push yes).push no).push b) c.size (c.size + 1 + 1 + 1)
    c'.op c.size = a.op ∧ c'.Linked c.size (c.size + 1 + 1 + 1) ∧
      c'.op (c.size + 1 + 1 + 1) = b.op := by
  have hsize : ((((c.push a).push yes).push no).push b).size = c.size + 4 := by simp
  have hi : c.size < ((((c.push a).push yes).push no).push b).size := by omega
  have hj : c.size + 1 + 1 + 1 < ((((c.push a).push yes).push no).push b).size := by omega
  refine ⟨?_, Code.linked_link hi hj, ?_⟩
  · rw [Code.op_link hi hj, Code.op_push_of_lt, Code.op_push_of_lt, Code.op_push_of_lt,
      Code.op_push_size] <;> simp only [Array.size_push] <;> omega
  · rw [Code.op_link hi hj, Code.op, Code.get_push, if_pos (by simp)]

/-- The branch at `k` compares the value at `i` with true. -/
structure BranchesAt (c : Code) (b : Branching) (i k : Nat) : Prop where
  code : b.code = ⟨some k, none⟩
  flag : ∃ v, c.op k = .constant v ∧ v.key = .bool true
  branch : ∃ r, c.Linked k r ∧ c.op r = .branch .same (some i) (some k) b.yes b.no

theorem ends_branchIfTrue (env : Env) (s : State) :
    Ends env (branchIfTrue false) s fun b s' => ∀ i stack, s.stack = ⟨i, none⟩ :: stack →
      BranchesAt s'.code b i s.code.size := by
  by_cases hs : ∃ i stack, s.stack = ⟨i, none⟩ :: stack
  swap
  · exact ends_of_forall fun _ _ i stack hi => absurd ⟨i, stack, hi⟩ hs
  obtain ⟨i, stack, hs⟩ := hs
  suffices h : Ends env (branchIfTrue false) s fun b s' => BranchesAt s'.code b i s.code.size by
    refine h.mono fun b s' hb j stack' hj => ?_
    obtain ⟨rfl, -⟩ : i = j ∧ stack = stack' := by simpa [hs] using hj
    exact hb
  unfold branchIfTrue branchOn boolConstant newConstant constant evaluating
  rw [ends_bind, ends_bind, ends_bind, ends_get]
  rcases hrun : (Constant.intern (.bool · true)).run s.store with ⟨result, store⟩
  dsimp only
  rw [ends_bind, ends_set]
  have hresult : result = .ok (s.store.pool.intern (.bool · true)).1 := congrArg Prod.fst hrun.symm
  rw [hresult]
  rw [ends_pure, ends_define]
  unfold branchIfSame popUse
  rw [ends_bind, ends_bind, ends_bind]
  refine ends_pop_cons rfl ?_
  rw [ends_pure, ends_bind, ends_bind]
  refine ends_pop_cons hs ?_
  rw [ends_pure]
  unfold makeTarget currentTry
  rw [ends_bind, ends_bind, ends_bind, ends_get, ends_pure, ends_emitBlock, ends_bind, ends_bind,
    ends_bind, ends_get, ends_pure, ends_emitBlock, ends_bind, ends_perform, ends_pure, ends_bind,
    ends_append, ends_pure]
  dsimp only
  rw [append_of_exit (x := s.code.size) rfl rfl rfl]
  simp only [Array.size_push]
  obtain ⟨hflag, hlink, hbranch⟩ := link_branch s.code _ _ _ _
  exact ⟨rfl, ⟨_, hflag, key_intern s.store.pool (.bool · true)⟩, _, hlink, hbranch⟩

theorem Compared.test {c c1 c2 c3 : Code} {v : Variable} {e : Tree.Expr} {b : Branching} {k : Nat}
    (h : Compared c c1 v e x i) (hb : BranchesAt c2 b i k) (h12 : c1.Extends c2)
    (h23 : c2.Extends c3) (hlink : c3.Linked i k) :
    c3.TestAt v e i ∧
      ∀ answers, c3.Passes answers x [i] (if answers i then b.yes else b.no) := by
  obtain ⟨left, right, constant, load, v, hv, hi, hl, hk, hr, ho⟩ := h.call
  obtain ⟨w, hflag, hw⟩ := hb.flag
  obtain ⟨r, hkr, hbranch⟩ := hb.branch
  have h13 := h12.trans h23
  refine ⟨⟨⟨left, right, constant, load, v, hv, h13.op_eq hi rfl, h13.op_eq hl rfl, h13.op_eq hk rfl,
    h13.op_eq hr rfl, h13.op_eq ho rfl⟩, r, k, w, b.yes, b.no, h23.op_eq hbranch rfl,
    h23.op_eq hflag rfl, hw⟩, fun answers => ?_⟩
  have p1 := (h.passes answers).mono h13
  have p2 : c3.Passes answers i [i] k := Code.passes_call (h13.op_eq hi rfl) hlink
  have p3 : c3.Passes answers k [] r :=
    Code.passes_link (by rw [h23.op_eq hflag rfl]; rfl) (h23.links k r hkr)
  have p4 : c3.Passes answers r [] (if answers i then b.yes else b.no) :=
    Code.passes_branch (h23.op_eq hbranch rfl)
  exact ((p1.trans p2).trans p3).trans p4

end Tests

end Flowgraph.Lowering
