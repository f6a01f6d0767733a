import Flowgraph.Proofs.Scoping.Effect

/-! # Where a run stands

Which functions and scopes are open after a part of a word can be said without the analysis, since
both are numbered in the order in which they begin. The machine agrees with it at every move.
-/

namespace Flowgraph.Scoping

/-- A function that has begun and not ended, with its own scope and the open scopes inside that one,
innermost first. -/
structure Open where
  function : Nat
  entry : Nat
  inner : List Nat := []

def Open.scopes (o : Open) : List Nat := o.inner ++ [o.entry]

structure Spot where
  functions : Nat := 0
  scopes : Nat := 0
  hasThis : Bool := false
  /-- The open functions, innermost first. -/
  around : List Open := []

namespace Spot

/-- A function begins. -/
def push (p : Spot) : Spot :=
  { p with functions := p.functions + 1, scopes := p.scopes + 1,
           around := ⟨p.functions, p.scopes, []⟩ :: p.around }

/-- A member begins first, and everything else is inside its function. -/
def next (p : Spot) : Move → Option Spot
  | .begin .. => match p.functions, p.around with
    | 0, [] => some p.push
    | _, _ => none
  | .nest .. => match p.around with
    | [] => none
    | _ :: _ => some p.push
  | .finish => match p.around with
    | ⟨_, _, []⟩ :: rest => some { p with around := rest }
    | _ => none
  | .enter .. => match p.around with
    | ⟨f, i, l⟩ :: rest => some { p with scopes := p.scopes + 1, around := ⟨f, i, p.scopes :: l⟩ :: rest }
    | [] => none
  | .exit => match p.around with
    | ⟨f, i, _ :: l⟩ :: rest => some { p with around := ⟨f, i, l⟩ :: rest }
    | _ => none
  | .receiver => match p.around, p.hasThis with
    | [⟨0, _, _⟩], false => some { p with hasThis := true }
    | _, _ => none
  | _ => match p.around with
    | [] => none
    | _ :: _ => some p

/-- Follow a word. -/
def follow (p : Spot) (w : List Move) : Option Spot := w.foldlM next p

theorem follow_cons (p : Spot) (mv : Move) (w : List Move) :
    p.follow (mv :: w) = (p.next mv).bind (·.follow w) := rfl

theorem follow_append (p : Spot) (v w : List Move) :
    p.follow (v ++ w) = (p.follow v).bind (·.follow w) := List.foldlM_append

theorem next_opens {p q : Spot} {mv : Move} {node : Option Nat} (h : mv.opens = some node)
    (hq : p.next mv = some q) : q = p.push := by
  cases mv with
  | begin =>
    simp only [next] at hq
    split at hq
    · exact (Option.some.inj hq).symm
    · cases hq
  | nest =>
    simp only [next] at hq
    split at hq
    · cases hq
    · exact (Option.some.inj hq).symm
  | _ => cases h

theorem next_plain {p q : Spot} {mv : Move} (h : mv.isPlain = true) (hq : p.next mv = some q) :
    q = p ∧ ∃ o rest, p.around = o :: rest := by
  have hnext : p.next mv = match p.around with
      | [] => none
      | _ :: _ => some p := by
    cases mv <;> first | rfl | cases h
  rw [hnext] at hq
  split at hq
  · cases hq
  · next o rest hp =>
    cases hq
    exact ⟨rfl, o, rest, hp⟩

theorem follow_balanced {w : List Move} (h : Balanced w) : ∀ (p : Spot), p.around ≠ [] →
    ∃ m n, p.follow w = some { p with functions := m, scopes := n } := by
  induction h with
  | nil => exact fun p _ => ⟨p.functions, p.scopes, rfl⟩
  | @plain mv hmv =>
    intro p hp
    refine ⟨p.functions, p.scopes, ?_⟩
    obtain ⟨functions, scopes, hasThis, _ | ⟨o, rest⟩⟩ := p
    · exact absurd rfl hp
    · cases mv <;> first | rfl | simp [Move.isPlain] at hmv
  | @append v w _ _ ihv ihw =>
    intro p hp
    obtain ⟨m, n, hv⟩ := ihv p hp
    obtain ⟨m', n', hw⟩ := ihw { p with functions := m, scopes := n } hp
    exact ⟨m', n', by rw [follow_append, hv]; exact hw⟩
  | @scope kind node place w _ ih =>
    rintro ⟨functions, scopes, hasThis, _ | ⟨⟨f, i, l⟩, rest⟩⟩ hp
    · exact absurd rfl hp
    obtain ⟨m, n, hw⟩ := ih ⟨functions, scopes + 1, hasThis, ⟨f, i, scopes :: l⟩ :: rest⟩
      (List.cons_ne_nil _ _)
    refine ⟨m, n, ?_⟩
    rw [follow_cons, next, Option.bind_some, follow_append, hw]
    rfl
  | @nest f name w hmoves _ ih =>
    rintro ⟨functions, scopes, hasThis, _ | ⟨o, rest⟩⟩ hp
    · exact absurd rfl hp
    obtain ⟨m, n, hw⟩ := ih (push ⟨functions, scopes, hasThis, o :: rest⟩) (List.cons_ne_nil _ _)
    refine ⟨m, n, ?_⟩
    rw [hmoves, follow_cons, next, Option.bind_some, follow_append, hw]
    rfl

theorem follow_begin (m : Tree.Member) : ({} : Spot).follow (beginMove m :: receiverMoves m) =
    some ⟨1, 1, hasReceiver m, [⟨0, 0, []⟩]⟩ := by
  have hbegin : ({} : Spot).next (beginMove m) = some ⟨1, 1, false, [⟨0, 0, []⟩]⟩ := by
    unfold beginMove
    split
    · split <;> rfl
    · rfl
    · rfl
  rw [follow_cons, hbegin, Option.bind_some, receiverMoves]
  cases hasReceiver m <;> rfl

theorem follow_inside (m : Tree.Member) : ∃ j k,
    (⟨1, 1, hasReceiver m, [⟨0, 0, []⟩]⟩ : Spot).follow (insideMoves m ++ [.finish]) =
      some ⟨j, k, hasReceiver m, []⟩ := by
  obtain ⟨j, k, hw⟩ := follow_balanced (balanced_insideMoves m) ⟨1, 1, hasReceiver m, [⟨0, 0, []⟩]⟩
    (List.cons_ne_nil _ _)
  refine ⟨j, k, ?_⟩
  rw [follow_append, hw]
  rfl

theorem follow_member (m : Tree.Member) :
    ∃ j k, ({} : Spot).follow (memberMoves m) = some ⟨j, k, hasReceiver m, []⟩ := by
  obtain ⟨j, k, hinside⟩ := follow_inside m
  refine ⟨j, k, ?_⟩
  rw [memberMoves, List.append_assoc, ← List.cons_append, follow_append, follow_begin, Option.bind_some,
    hinside]

end Spot

/-! ## The analysis only grows -/

structure Extends (a b : Analysis) : Prop where
  first : b.firstVariable = a.firstVariable ∧ b.firstScope = a.firstScope ∧
    b.firstLayout = a.firstLayout
  sizes : a.vars.size ≤ b.vars.size ∧ a.scopes.size ≤ b.scopes.size ∧
    a.layouts.size ≤ b.layouts.size
  scope : ∀ i < a.scopes.size, (b.scope i).parent = (a.scope i).parent ∧
    (b.scope i).function = (a.scope i).function ∧ (a.scope i).vars <+: (b.scope i).vars
  var : ∀ v < a.vars.size, (b.var v).decl = (a.var v).decl ∧ (b.var v).scope = (a.var v).scope ∧
    (b.var v).function = (a.var v).function
  layout : ∀ f < a.layouts.size, (b.layout f).node = (a.layout f).node ∧
    (b.layout f).scope = (a.layout f).scope ∧ (b.layout f).parent = (a.layout f).parent

variable {a b c : Analysis}

theorem Extends.refl (a : Analysis) : Extends a a := by
  constructor <;> simp

theorem Extends.trans (hab : Extends a b) (hbc : Extends b c) : Extends a c where
  first := ⟨hbc.first.1.trans hab.first.1, hbc.first.2.1.trans hab.first.2.1,
    hbc.first.2.2.trans hab.first.2.2⟩
  sizes := ⟨Nat.le_trans hab.sizes.1 hbc.sizes.1, Nat.le_trans hab.sizes.2.1 hbc.sizes.2.1,
    Nat.le_trans hab.sizes.2.2 hbc.sizes.2.2⟩
  scope i hi := by
    obtain ⟨hp, hf, hv⟩ := hab.scope i hi
    obtain ⟨hp', hf', hv'⟩ := hbc.scope i (Nat.lt_of_lt_of_le hi hab.sizes.2.1)
    exact ⟨hp'.trans hp, hf'.trans hf, hv.trans hv'⟩
  var v hv := by
    obtain ⟨hd, hs, hf⟩ := hab.var v hv
    obtain ⟨hd', hs', hf'⟩ := hbc.var v (Nat.lt_of_lt_of_le hv hab.sizes.1)
    exact ⟨hd'.trans hd, hs'.trans hs, hf'.trans hf⟩
  layout f hf := by
    obtain ⟨hn, hs, hp⟩ := hab.layout f hf
    obtain ⟨hn', hs', hp'⟩ := hbc.layout f (Nat.lt_of_lt_of_le hf hab.sizes.2.2)
    exact ⟨hn'.trans hn, hs'.trans hs, hp'.trans hp⟩

theorem extends_addLayout (a : Analysis) (l : Layout) : Extends a (a.addLayout l) where
  first := ⟨rfl, rfl, rfl⟩
  sizes := by simp [Analysis.addLayout]
  scope _ _ := ⟨rfl, rfl, List.prefix_rfl⟩
  var _ _ := ⟨rfl, rfl, rfl⟩
  layout f hf := by
    rw [a.layout_addLayout, if_neg (Nat.ne_of_lt hf)]
    exact ⟨rfl, rfl, rfl⟩

theorem extends_addScope (a : Analysis) (s : Scope) : Extends a (a.addScope s) where
  first := ⟨rfl, rfl, rfl⟩
  sizes := by simp [Analysis.addScope]
  scope i hi := by
    rw [a.scope_addScope, if_neg (Nat.ne_of_lt hi)]
    exact ⟨rfl, rfl, List.prefix_rfl⟩
  var _ _ := ⟨rfl, rfl, rfl⟩
  layout _ _ := ⟨rfl, rfl, rfl⟩

theorem extends_addVariable (a : Analysis) (name : String) (decl : Option Nat) (scope function : Nat) :
    Extends a (a.addVariable name decl scope function) where
  first := ⟨rfl, rfl, rfl⟩
  sizes := by simp [Analysis.addVariable]
  scope _ _ := ⟨rfl, rfl, List.prefix_rfl⟩
  var v hv := by
    rw [a.var_addVariable, if_neg (Nat.ne_of_lt hv)]
    exact ⟨rfl, rfl, rfl⟩
  layout f _ := by
    rw [a.layout_addVariable]
    split <;> exact ⟨rfl, rfl, rfl⟩

theorem extends_addListed (a : Analysis) (name : String) (decl : Option Nat) (scope function : Nat) :
    Extends a (a.addListed name decl scope function) where
  first := ⟨rfl, rfl, rfl⟩
  sizes := by simp
  scope i _ := by
    rw [a.scope_addListed]
    split
    · exact ⟨rfl, rfl, List.prefix_append _ _⟩
    · exact ⟨rfl, rfl, List.prefix_rfl⟩
  var := (extends_addVariable a name decl scope function).var
  layout := (extends_addVariable a name decl scope function).layout

theorem extends_editLayout (a : Analysis) (f : Nat) {change : Layout → Layout}
    (h : ∀ l, (change l).node = l.node ∧ (change l).scope = l.scope ∧ (change l).parent = l.parent) :
    Extends a (a.editLayout f change) where
  first := ⟨rfl, rfl, rfl⟩
  sizes := by simp [Analysis.editLayout]
  scope _ _ := ⟨rfl, rfl, List.prefix_rfl⟩
  var _ _ := ⟨rfl, rfl, rfl⟩
  layout g _ := by
    rw [a.layout_editLayout]
    split
    · exact h _
    · exact ⟨rfl, rfl, rfl⟩

theorem Assists.extends {f : Nat} (h : Assists f a b) : Extends a b := by
  induction h with
  | refl => exact .refl a
  | helper _ ih => exact ih.trans (extends_addVariable ..)
  | note _ hc ih =>
    exact ih.trans (extends_editLayout _ f fun l => ⟨(hc l).1, (hc l).2.1, (hc l).2.2.1⟩)

theorem alike_closures (a : Analysis) (closures : List Closure) : Alike a { a with closures } where
  first := ⟨rfl, rfl, rfl⟩
  sizes := ⟨rfl, rfl, rfl⟩
  scope _ := ⟨rfl, rfl, rfl⟩
  var _ := ⟨rfl, rfl, rfl, rfl⟩
  layout _ := ⟨rfl, rfl⟩

theorem Alike.extends (h : Alike a b) (hl : b.layouts = a.layouts) : Extends a b where
  first := h.first
  sizes := ⟨Nat.le_of_eq h.sizes.1.symm, Nat.le_of_eq h.sizes.2.1.symm, Nat.le_of_eq h.sizes.2.2.symm⟩
  scope i _ := ⟨(h.scope i).1, (h.scope i).2.1, (h.scope i).2.2 ▸ List.prefix_rfl⟩
  var v _ := ⟨(h.var v).1, (h.var v).2.1, (h.var v).2.2.1⟩
  layout f _ := by
    rw [Analysis.layout, hl]
    exact ⟨rfl, rfl, rfl⟩

theorem alike_capture (a : Analysis) (layout : Option Nat) (v : Nat) : Alike a (a.capture layout v) := by
  obtain ⟨vars, scopes, heq, hvars, hscopes, hvar, hscope⟩ := a.capture_eq layout v
  rw [heq]
  constructor
  case first => exact ⟨rfl, rfl, rfl⟩
  case sizes => exact ⟨hvars, hscopes, rfl⟩
  case scope =>
    intro i
    rw [show Analysis.scope { a with vars, scopes } i = _ from hscope i]
    exact ⟨rfl, rfl, rfl⟩
  case var =>
    intro w
    rw [show Analysis.var { a with vars, scopes } w = _ from hvar w]
    exact ⟨rfl, rfl, rfl, rfl⟩
  case layout => exact fun f => ⟨rfl, rfl⟩

theorem layouts_capture (a : Analysis) (layout : Option Nat) (v : Nat) :
    (a.capture layout v).layouts = a.layouts := by
  obtain ⟨vars, scopes, heq, _⟩ := a.capture_eq layout v
  rw [heq]

/-! ## Agreement -/

/-- The open scopes, innermost first. -/
def chain (around : List Open) : List Nat := around.flatMap Open.scopes

/-- The functions to go back to. -/
def outers : List Open → List (Option Nat)
  | [] => []
  | _ :: rest => (rest.head?.map (·.function)) :: outers rest

/-- Scopes of a function, each inside the next. -/
def Nested (a : Analysis) (f : Nat) (outer : Option Nat) : List Nat → Prop
  | [] => True
  | i :: l => i < a.scopes.size ∧ (a.scope i).function = f ∧ (a.scope i).parent = l.head?.or outer ∧
    Nested a f outer l

/-- The analysis has the open functions and scopes, each inside the next. -/
def Held (a : Analysis) : List Open → Prop
  | [] => True
  | o :: rest => o.function < a.layouts.size ∧ (a.layout o.function).scope = o.entry ∧
    (a.layout o.function).parent = rest.head?.map (·.function) ∧
    Nested a o.function (chain rest).head? o.scopes ∧ Held a rest

theorem Nested.mono {f : Nat} {outer : Option Nat} (hab : Extends a b) :
    ∀ {l : List Nat}, Nested a f outer l → Nested b f outer l
  | [], _ => trivial
  | i :: _, ⟨hi, hf, hp, hl⟩ =>
    ⟨Nat.lt_of_lt_of_le hi hab.sizes.2.1, (hab.scope i hi).2.1.trans hf, (hab.scope i hi).1.trans hp,
      hl.mono hab⟩

theorem Held.mono (hab : Extends a b) : ∀ {around : List Open}, Held a around → Held b around
  | [], _ => trivial
  | _ :: _, ⟨hlt, hs, hp, hn, hrest⟩ =>
    ⟨Nat.lt_of_lt_of_le hlt hab.sizes.2.2, (hab.layout _ hlt).2.1.trans hs,
      (hab.layout _ hlt).2.2.trans hp, hn.mono hab, hrest.mono hab⟩

structure Agrees (c : Core) (p : Spot) : Prop where
  shape : Shape c.analysis
  functions : c.analysis.layouts.size = p.functions
  scopes : c.analysis.scopes.size = p.scopes
  layout : c.layout = p.around.head?.map (·.function)
  scope : c.scope = (chain p.around).head?
  outer : c.outer = outers p.around
  held : Held c.analysis p.around
  this : c.analysis.member.this.isSome = p.hasThis

theorem Assists.keeps {f : Nat} (h : Assists f a b) : b.scopes = a.scopes ∧
    b.layouts.size = a.layouts.size ∧ ∀ g, (b.layout g).this = (a.layout g).this := by
  induction h with
  | refl => exact ⟨rfl, rfl, fun _ => rfl⟩
  | @helper b name _ ih =>
    refine ⟨ih.1, (b.size_layouts_addVariable ..).trans ih.2.1, fun g => ?_⟩
    exact (b.this_addVariable name none _ f g).trans (ih.2.2 g)
  | @note b change _ hc ih =>
    refine ⟨ih.1, (b.size_layouts_editLayout f change).trans ih.2.1, fun g => ?_⟩
    rw [b.layout_editLayout]
    split
    · exact (hc _).2.2.2.2.1.trans (ih.2.2 g)
    · exact ih.2.2 g

theorem Assists.member_this {f : Nat} (h : Assists f a b) : b.member.this = a.member.this := by
  rw [Analysis.member, h.extends.first.2.2]
  exact h.keeps.2.2 a.firstLayout

theorem alike_editLayout (a : Analysis) (f : Nat) {change : Layout → Layout}
    (h : ∀ l, (change l).scope = l.scope ∧ (change l).slots = l.slots) :
    Alike a (a.editLayout f change) where
  first := ⟨rfl, rfl, rfl⟩
  sizes := ⟨rfl, rfl, a.size_layouts_editLayout f change⟩
  scope _ := ⟨rfl, rfl, rfl⟩
  var _ := ⟨rfl, rfl, rfl, rfl⟩
  layout g := by
    rw [a.layout_editLayout]
    split
    · exact h _
    · exact ⟨rfl, rfl⟩

theorem Shape.assists {f : Nat} (h : Shape a) (hf : f < a.layouts.size) (hab : Assists f a b) :
    Shape b := by
  induction hab with
  | refl => exact h
  | @helper b name hab ih =>
    have hf' : f < b.layouts.size := hab.keeps.2.1 ▸ hf
    exact ih.addHelper (ih.entry f hf').1 hf'
  | @note b change hab hc ih =>
    refine ih.congr (alike_editLayout b f fun l => ⟨(hc l).2.1, (hc l).2.2.2.1⟩) ?_ ih.captured_listed
    intro v hv
    exact ih.this_listed v ((Assists.refl.note hc).member_this ▸ hv)

theorem Shape.capture (h : Shape a) {layout : Option Nat} {v : Nat}
    (hv : v ∈ (a.scope (a.var v).scope).vars) : Shape (a.capture layout v) := by
  obtain ⟨vars, scopes, heq, _, _, hvar, _⟩ := a.capture_eq layout v
  refine h.congr (alike_capture a layout v) ?_ ?_
  · intro w hw
    rw [heq] at hw
    exact h.this_listed w hw
  · intro w hw
    rw [heq, show Analysis.var { a with vars, scopes } w = _ from hvar w] at hw
    simp only [Bool.or_eq_true, decide_eq_true_eq] at hw
    obtain hw | ⟨_, rfl, _⟩ := hw
    · exact h.captured_listed w hw
    · exact hv

theorem Analysis.this_addReceiver (hfirst : a.firstLayout = 0) (hf : 0 < a.layouts.size) (i : Nat) :
    (a.addReceiver i 0).member.this = some a.vars.size := by
  have hmember : (a.addReceiver i 0).member = (a.addReceiver i 0).layout 0 :=
    congrArg (a.addReceiver i 0).layout hfirst
  have hsize : 0 < (a.addListed "this" none i 0).layouts.size :=
    (a.size_layouts_addListed "this" none i 0).symm ▸ hf
  rw [hmember, Analysis.addReceiver, Analysis.layout_editLayout, if_pos ⟨rfl, hsize⟩]

theorem Shape.addReceiver (h : Shape a) {i : Nat} (hi : i < a.scopes.size)
    (hf : (a.scope i).function = 0) (hf' : 0 < a.layouts.size) : Shape (a.addReceiver i 0) := by
  have hlisted : Shape (a.addListed "this" none i 0) := h.addListed hi hf hf' (by simp)
  have hvar : (a.addListed "this" none i 0).var a.vars.size = _ :=
    (a.var_addListed "this" none i 0 a.vars.size).trans (if_pos rfl)
  have hmem : a.vars.size ∈ ((a.addListed "this" none i 0).scope i).vars := by
    rw [a.scope_addListed, if_pos ⟨rfl, hi⟩]
    simp
  refine hlisted.congr (alike_editLayout _ 0 fun l => ⟨rfl, rfl⟩) ?_ hlisted.captured_listed
  intro v hv
  cases (Analysis.this_addReceiver h.first.2.2 hf' i).symm.trans hv
  rw [hvar]
  exact ⟨hmem, rfl⟩

/-! ## Steps -/

variable {c c' : Core} {p q : Spot} {mv : Move}

theorem head?_chain (o : Open) (rest : List Open) : ∃ i, (chain (o :: rest)).head? = some i ∧
    o.scopes.head? = some i := by
  rcases o with ⟨f, e, _ | ⟨i, l⟩⟩
  · exact ⟨e, rfl, rfl⟩
  · exact ⟨i, rfl, rfl⟩

theorem Agrees.open (h : Agrees c p) {o : Open} {rest : List Open} (hp : p.around = o :: rest) :
    c.layout = some o.function ∧ o.function < c.analysis.layouts.size ∧
      (∃ i, c.scope = some i ∧ i < c.analysis.scopes.size ∧
        (c.analysis.scope i).function = o.function) ∧
      c.outer = (rest.head?.map (·.function)) :: outers rest := by
  obtain ⟨i, hchain, hi⟩ := head?_chain o rest
  have hheld := h.held
  rw [hp] at hheld
  obtain ⟨hlt, _, _, hnested, _⟩ := hheld
  refine ⟨by rw [h.layout, hp]; rfl, hlt, ⟨i, by rw [h.scope, hp, hchain], ?_⟩, by rw [h.outer, hp]; rfl⟩
  cases hl : o.scopes with
  | nil => simp [hl] at hi
  | cons j l =>
    rw [hl] at hi hnested
    cases hi
    exact ⟨hnested.1, hnested.2.1⟩

theorem Agrees.still (h : Agrees c p) {b : Analysis} (hs : Shape b) (hx : Extends c.analysis b)
    (hsizes : b.layouts.size = c.analysis.layouts.size ∧ b.scopes.size = c.analysis.scopes.size)
    (hthis : b.member.this = c.analysis.member.this) : Agrees { c with analysis := b } p where
  shape := hs
  functions := hsizes.1.trans h.functions
  scopes := hsizes.2.trans h.scopes
  layout := h.layout
  scope := h.scope
  outer := h.outer
  held := h.held.mono hx
  this := by rw [← h.this]; exact congrArg Option.isSome hthis

theorem Agrees.assists (h : Agrees c p) {f : Nat} {b : Analysis} (hf : f < c.analysis.layouts.size)
    (hab : Assists f c.analysis b) : Agrees { c with analysis := b } p :=
  h.still (h.shape.assists hf hab) hab.extends ⟨hab.keeps.2.1, congrArg Array.size hab.keeps.1⟩
    hab.member_this

theorem Agrees.capture (h : Agrees c p) {v : Nat}
    (hv : v ∈ (c.analysis.scope (c.analysis.var v).scope).vars) :
    Agrees { c with analysis := c.analysis.capture c.layout v } p := by
  have hlayouts := layouts_capture c.analysis c.layout v
  have halike := alike_capture c.analysis c.layout v
  refine h.still (h.shape.capture hv) (halike.extends hlayouts) ⟨halike.sizes.2.2, halike.sizes.2.1⟩ ?_
  rw [Analysis.member, Analysis.layout, hlayouts, halike.first.2.2]
  rfl

theorem Agrees.addListed (h : Agrees c p) (name : String) {decl : Option Nat} {f i : Nat}
    (hi : i < c.analysis.scopes.size) (hf : (c.analysis.scope i).function = f)
    (hf' : f < c.analysis.layouts.size)
    (hdecl : ∀ d, decl = some d → ∀ v, (c.analysis.var v).decl ≠ some d) :
    Agrees { c with analysis := c.analysis.addListed name decl i f } p :=
  h.still (h.shape.addListed hi hf hf' hdecl) (extends_addListed ..) (by simp)
    (c.analysis.this_addListed name decl i f c.analysis.firstLayout)

theorem Agrees.scope_lt (h : Agrees c p) {i : Nat} (hi : c.scope = some i) :
    i < c.analysis.scopes.size := by
  cases hp : p.around with
  | nil =>
    rw [h.scope, hp] at hi
    cases hi
  | cons o rest =>
    obtain ⟨_, _, ⟨j, hj, hlt, _⟩, _⟩ := h.open hp
    cases hi.symm.trans hj
    exact hlt

theorem this_addLayout {a : Analysis} {l : Layout} (hl : l.this = none) :
    (a.addLayout l).member.this = a.member.this := by
  rw [Analysis.member, show (a.addLayout l).firstLayout = a.firstLayout from rfl, a.layout_addLayout]
  split
  · next heq => rw [hl, Analysis.member, Analysis.layout_of_le (Nat.le_of_eq heq.symm), this_default]
  · rfl

theorem Agrees.opens (h : Agrees c p) {l : Layout} {sc : Scope} {b : Analysis}
    (hl : l.scope = c.analysis.scopes.size) (hlp : l.parent = c.layout) (hlt : l.this = none)
    (hsp : sc.parent = c.scope) (hsf : sc.function = c.analysis.layouts.size) (hsv : sc.vars = [])
    (hab : Assists c.analysis.layouts.size ((c.analysis.addLayout l).addScope sc) b) :
    Agrees ⟨b, some c.analysis.scopes.size, some c.analysis.layouts.size, c.layout :: c.outer⟩
      p.push := by
  have hx : Extends c.analysis ((c.analysis.addLayout l).addScope sc) :=
    (extends_addLayout c.analysis l).trans (extends_addScope _ sc)
  have hnew : ((c.analysis.addLayout l).addScope sc).layout c.analysis.layouts.size = l :=
    (c.analysis.layout_addLayout l _).trans (if_pos rfl)
  have hlayouts : c.analysis.layouts.size < ((c.analysis.addLayout l).addScope sc).layouts.size := by
    rw [show ((c.analysis.addLayout l).addScope sc).layouts.size = _ from
      c.analysis.size_layouts_addLayout l]
    exact Nat.lt_succ_self _
  have hscopes : c.analysis.scopes.size < ((c.analysis.addLayout l).addScope sc).scopes.size := by
    rw [(c.analysis.addLayout l).size_scopes_addScope]
    exact Nat.lt_succ_self _
  have hscope : ((c.analysis.addLayout l).addScope sc).scope c.analysis.scopes.size = sc :=
    ((c.analysis.addLayout l).scope_addScope sc _).trans (if_pos rfl)
  have hshape : Shape ((c.analysis.addLayout l).addScope sc) :=
    h.shape.openFunction hl hlt hsf hsv fun i hi => h.scope_lt (hsp ▸ hi)
  obtain ⟨hlaynode, hlayscope, hlayparent⟩ := hab.extends.layout _ hlayouts
  obtain ⟨hparent, hfunction, _⟩ := hab.extends.scope _ hscopes
  constructor
  case shape => exact hshape.assists hlayouts hab
  case functions =>
    rw [Spot.push, ← h.functions]
    exact hab.keeps.2.1.trans (c.analysis.size_layouts_addLayout l)
  case scopes =>
    rw [Spot.push, ← h.scopes]
    exact (congrArg Array.size hab.keeps.1).trans ((c.analysis.addLayout l).size_scopes_addScope sc)
  case layout => exact congrArg some h.functions
  case scope => exact congrArg some h.scopes
  case outer => rw [Spot.push, outers, ← h.layout, ← h.outer]
  case held =>
    rw [Spot.push, ← h.functions, ← h.scopes]
    refine ⟨?_, ?_, ?_, ⟨?_, ?_, ?_, trivial⟩, h.held.mono (hx.trans hab.extends)⟩
    · rw [hab.keeps.2.1]
      exact hlayouts
    · rw [hlayscope, hnew, hl]
    · rw [hlayparent, hnew, hlp, h.layout]
    · rw [congrArg Array.size hab.keeps.1]
      exact hscopes
    · rw [hfunction, hscope, hsf]
    · rw [hparent, hscope, hsp, h.scope]
      rfl
  case this =>
    rw [hab.member_this, Spot.push, ← h.this]
    exact congrArg Option.isSome (this_addLayout hlt)

theorem lookupFrom_listed (a : Analysis) (d : Nat) {v : Nat} : ∀ (limit : Nat) (i : Option Nat),
    a.lookupFrom d limit i = some v → ∃ j, v ∈ (a.scope j).vars ∧ (a.var v).decl = some d
  | 0, _, h | _ + 1, none, h => by cases h
  | limit + 1, some i, h => by
    rw [Analysis.lookupFrom] at h
    split at h
    · next w hw =>
      cases h
      exact ⟨i, List.mem_of_find?_eq_some hw, by simpa using List.find?_some hw⟩
    · exact lookupFrom_listed a d limit _ h

theorem Agrees.effect (h : Agrees c p) (he : Effect c mv c') (hq : p.next mv = some q) :
    Agrees c' q := by
  cases he with
  | @opens _ l sc b hmv hl hlp hlt hsp hsf hsv _ hab =>
    cases Spot.next_opens hmv hq
    exact h.opens hl hlp hlt hsp hsf hsv hab
  | @finish i outer rest closures hi ho =>
    obtain ⟨functions, scopes, hasThis, _ | ⟨⟨f, e, _ | _⟩, around⟩⟩ := p <;> cases hq
    obtain ⟨_, _, _, ⟨_, _, hparent, _⟩, hheld⟩ := h.held
    cases hi.symm.trans h.scope
    cases ho.symm.trans h.outer
    exact {
      shape := h.shape.congr (alike_closures ..) h.shape.this_listed h.shape.captured_listed
      functions := h.functions
      scopes := h.scopes
      layout := rfl
      scope := hparent
      outer := rfl
      held := hheld.mono ((alike_closures ..).extends rfl)
      this := h.this }
  | @enter kind node place sc f hf hsp hsf hsv _ =>
    obtain ⟨functions, scopes, hasThis, _ | ⟨⟨g, e, inner⟩, around⟩⟩ := p <;> cases hq
    obtain ⟨hlt, hs, hp, hnested, hheld⟩ := h.held
    cases hf.symm.trans h.layout
    have hx := extends_addScope c.analysis sc
    have hscope : (c.analysis.addScope sc).scope scopes = sc := by
      rw [c.analysis.scope_addScope, if_pos h.scopes.symm]
    have hlt' : scopes < (c.analysis.addScope sc).scopes.size := by
      rw [c.analysis.size_scopes_addScope, h.scopes]
      exact Nat.lt_succ_self _
    have hhead : c.scope = (inner ++ [e]).head?.or (chain around).head? := by
      rw [h.scope]
      cases inner <;> rfl
    exact {
      shape := h.shape.openScope hsv fun i hi => h.scope_lt (hsp ▸ hi)
      functions := h.functions
      scopes := by rw [c.analysis.size_scopes_addScope, h.scopes]
      layout := h.layout
      scope := congrArg some h.scopes
      outer := h.outer
      held := ⟨hlt, hs, hp, ⟨hlt', by rw [hscope, hsf], by rw [hscope, hsp, hhead]; rfl,
        hnested.mono hx⟩, hheld.mono hx⟩
      this := h.this }
  | @exit i hi =>
    obtain ⟨functions, scopes, hasThis, _ | ⟨⟨g, e, _ | ⟨j, inner⟩⟩, around⟩⟩ := p <;> cases hq
    obtain ⟨hlt, hs, hp, ⟨_, _, hparent, hnested⟩, hheld⟩ := h.held
    cases hi.symm.trans h.scope
    exact {
      shape := h.shape
      functions := h.functions
      scopes := h.scopes
      layout := h.layout
      scope := hparent.trans (by cases inner <;> rfl)
      outer := h.outer
      held := ⟨hlt, hs, hp, hnested, hheld⟩
      this := h.this }
  | @declare d f i b _ hmv hf hi hnew hab =>
    have hplain : mv.isPlain = true := by
      obtain rfl | rfl := hmv <;> rfl
    obtain ⟨rfl, o, rest, ho⟩ := Spot.next_plain hplain hq
    obtain ⟨hlayout, hlt, ⟨j, hj, hjs, hjf⟩, _⟩ := h.open ho
    cases hf.symm.trans hlayout
    cases hi.symm.trans hj
    have hdecl : ∀ e, some d.id = some e → ∀ v, (c.analysis.var v).decl ≠ some e := by
      rintro _ ⟨⟩
      exact hnew
    have hlisted := h.addListed d.name hjs hjf hlt hdecl
    exact hlisted.assists (by simpa using hlt) hab
  | @receiver f i hf hi =>
    obtain ⟨hplace, hfalse⟩ : (∃ e inner, p.around = [⟨0, e, inner⟩]) ∧ q = { p with hasThis := true } := by
      obtain ⟨functions, scopes, _ | _, _ | ⟨⟨_ | g, e, inner⟩, _ | _⟩⟩ := p <;> cases hq
      exact ⟨⟨e, inner, rfl⟩, rfl⟩
    subst hfalse
    obtain ⟨e, inner, ho⟩ := hplace
    obtain ⟨hlayout, hlt, ⟨j, hj, hjs, hjf⟩, _⟩ := h.open ho
    cases hf.symm.trans hlayout
    cases hi.symm.trans hj
    have hx : Extends c.analysis (c.analysis.addReceiver i 0) :=
      (extends_addListed ..).trans (extends_editLayout _ 0 fun _ => ⟨rfl, rfl, rfl⟩)
    exact {
      shape := h.shape.addReceiver hjs hjf hlt
      functions := by simpa [Analysis.addReceiver] using h.functions
      scopes := by simpa [Analysis.addReceiver, Analysis.editLayout] using h.scopes
      layout := h.layout
      scope := h.scope
      outer := h.outer
      held := h.held.mono hx
      this := congrArg Option.isSome (Analysis.this_addReceiver h.shape.first.2.2 hlt i) }
  | @mention place ref v hv =>
    obtain ⟨rfl, _⟩ := Spot.next_plain rfl hq
    obtain ⟨j, hj, hd⟩ := lookupFrom_listed _ _ _ _ hv
    exact h.capture (h.shape.decl_listed v _ hd)
  | @this place v hv =>
    obtain ⟨rfl, _⟩ := Spot.next_plain rfl hq
    exact h.capture (h.shape.this_listed v hv).1
  | @help ask f b hf hab =>
    obtain ⟨rfl, o, rest, ho⟩ := Spot.next_plain rfl hq
    cases hf.symm.trans (h.open ho).1
    exact h.assists (h.open ho).2.1 hab
  | count =>
    obtain ⟨rfl, _⟩ := Spot.next_plain rfl hq
    exact h
  | request =>
    obtain ⟨rfl, _⟩ := Spot.next_plain rfl hq
    exact h

/-! ## Runs -/

theorem Spot.around_ne_nil (hmv : mv.opens = none) (hq : p.next mv = some q) :
    ∃ o rest, p.around = o :: rest := by
  cases hp : p.around with
  | cons o rest => exact ⟨o, rest, rfl⟩
  | nil => cases mv <;> simp [Spot.next, hp] at hq <;> cases hmv

theorem Agrees.inside {M : Machine} (h : Agrees M.core p) (hq : p.next mv = some q)
    (hmv : mv.opens = none) : ∃ f i outer rest, M.state.layout = some f ∧ M.state.scope = some i ∧
      M.saved = outer :: rest := by
  obtain ⟨o, rest, ho⟩ := Spot.around_ne_nil hmv hq
  obtain ⟨hlayout, _, ⟨i, hi, _⟩, houter⟩ := h.open ho
  obtain ⟨outer, saved, hsaved, _⟩ := List.map_eq_cons_iff.mp houter
  exact ⟨o.function, i, outer, saved, hlayout, hi, hsaved⟩

theorem Agrees.step {M M' : Machine} (h : Agrees M.core p) (hq : p.next mv = some q)
    (hs : step M mv = .ok M') : Effect M.core mv M'.core ∧ Agrees M'.core q := by
  have he : Effect M.core mv M'.core := step_effect h.shape.first.1 (h.inside hq) hs
  exact ⟨he, h.effect he hq⟩

theorem agrees_start : Agrees (Machine.core { state := {} }) {} where
  shape := shape_empty
  functions := rfl
  scopes := rfl
  layout := rfl
  scope := rfl
  outer := rfl
  held := trivial
  this := rfl

/-- What holds at first and is kept by every step holds at the end of a run. -/
theorem perform_invariant {I : List Move → Machine → Spot → Prop} {w : List Move}
    (hstep : ∀ {u mv M M' p q}, I u M p → Agrees M.core p → step M mv = .ok M' →
      Effect M.core mv M'.core → p.next mv = some q → I (u ++ [mv]) M' q) :
    ∀ {u : List Move} {M M' : Machine} {p q : Spot}, I u M p → Agrees M.core p →
      perform M w = .ok M' → p.follow w = some q → I (u ++ w) M' q ∧ Agrees M'.core q := by
  induction w with
  | nil =>
    intro u M M' p q hI h hM hp
    cases hM
    cases hp
    exact ⟨by rwa [List.append_nil], h⟩
  | cons mv w ih =>
    intro u M M' p q hI h hM hp
    rw [perform_cons] at hM
    rw [Spot.follow_cons] at hp
    cases hs : step M mv with
    | error e => simp [hs, Except.bind] at hM
    | ok N =>
      obtain ⟨r, hr, hp⟩ := Option.bind_eq_some_iff.mp hp
      obtain ⟨he, hN⟩ := h.step hr hs
      rw [hs] at hM
      simpa using ih (hstep hI h hs he hr) hN hM hp

theorem run_invariant {I : List Move → Core → Spot → Prop} {w : List Move}
    (hstep : ∀ {u mv c c' p q}, I u c p → Agrees c p → Effect c mv c' → p.next mv = some q →
      I (u ++ [mv]) c' q) :
    ∀ {u : List Move} {M M' : Machine} {p q : Spot}, I u M.core p → Agrees M.core p →
      perform M w = .ok M' → p.follow w = some q → I (u ++ w) M'.core q ∧ Agrees M'.core q :=
  perform_invariant (I := fun u M p => I u M.core p) fun hI h _ he hq => hstep hI h he hq

end Flowgraph.Scoping
