import Flowgraph.Proofs.Scoping.Spot

/-! # Frames

Frames are given to the scopes in the order of their numbers, so that the scope around a scope has its
level first. What names mean is not touched.
-/

namespace Flowgraph.Scoping

variable {a b c : Analysis}

/-! ## Slots -/

/-- Give the slots from `n` on to captured variables. -/
def assignSlots (level : Int) (captured : List Nat) (n : Nat) (vars : Array Variable) : Array Variable :=
  (captured.zipIdx n).foldl (fun vs x => vs.modify x.1 fun v => { v with level, index := x.2 }) vars

theorem size_assignSlots (level : Int) (captured : List Nat) (n : Nat) (vars : Array Variable) :
    (assignSlots level captured n vars).size = vars.size := by
  induction captured generalizing n vars with
  | nil => rfl
  | cons v rest ih => exact (ih ..).trans Array.size_modify

theorem getD_assignSlots_of_notMem {level : Int} {captured : List Nat} {w : Nat} (h : w ∉ captured)
    (n : Nat) (vars : Array Variable) :
    (assignSlots level captured n vars).getD w default = vars.getD w default := by
  induction captured generalizing n vars with
  | nil => rfl
  | cons v rest ih =>
    obtain ⟨hv, hrest⟩ := List.ne_and_not_mem_of_not_mem_cons h
    refine (ih hrest (n + 1) _).trans ?_
    rw [getD_modify, if_neg fun hw => hv hw.1]

theorem getD_assignSlots {level : Int} {captured : List Nat} (hn : captured.Nodup) {k w : Nat}
    (hw : captured[k]? = some w) (n : Nat) {vars : Array Variable} (hlt : w < vars.size) :
    (assignSlots level captured n vars).getD w default =
      { vars.getD w default with level, index := n + k } := by
  induction captured generalizing k n vars with
  | nil => simp at hw
  | cons v rest ih =>
    obtain ⟨hv, hrest⟩ := List.nodup_cons.mp hn
    cases k with
    | zero =>
      cases hw
      refine (getD_assignSlots_of_notMem hv (n + 1) _).trans ?_
      rw [getD_modify, if_pos ⟨rfl, hlt⟩]
      rfl
    | succ k =>
      have hmem : w ∈ rest := List.mem_of_getElem? hw
      refine (ih hrest hw (n + 1) (by simpa using hlt)).trans ?_
      rw [getD_modify, if_neg (by rintro ⟨rfl, _⟩; exact hv hmem), Nat.add_assoc, Nat.add_comm 1 k]

/-! ## Scopes one by one -/

/-- The analyses differ at most in their frames. -/
structure SameNames (a b : Analysis) : Prop where
  alike : Alike a b
  captured : ∀ v, (b.var v).isCaptured = (a.var v).isCaptured
  forced : ∀ i, (b.scope i).isForced = (a.scope i).isForced
  layout : ∀ f, (b.layout f).node = (a.layout f).node ∧ (b.layout f).parent = (a.layout f).parent ∧
    (b.layout f).this = (a.layout f).this

/-- The level of the frame around a scope. -/
def outerLevel (a : Analysis) (i : Nat) : Int :=
  match (a.scope i).parent with
  | none => -1
  | some p => (a.scope p).level

/-- The first `n` scopes have their frames. -/
structure Framed (a b : Analysis) (n : Nat) : Prop where
  names : SameNames a b
  captured : ∀ i < n, (b.scope i).captured = (a.scope i).vars.filter fun v => (a.var v).isCaptured
  hasFrame : ∀ i < n, (b.scope i).hasFrame =
    ((a.scope i).isForced || !(b.scope i).captured.isEmpty)
  level : ∀ i < n, (b.scope i).level = outerLevel b i + if (b.scope i).hasFrame then 1 else 0
  slot : ∀ i < n, ∀ k v, (b.scope i).captured[k]? = some v →
    (b.var v).level = (b.scope i).level ∧ (b.var v).index = k

theorem framed_zero (a : Analysis) : Framed a a 0 where
  names := ⟨⟨⟨rfl, rfl, rfl⟩, ⟨rfl, rfl, rfl⟩, fun _ => ⟨rfl, rfl, rfl⟩, fun _ => ⟨rfl, rfl, rfl, rfl⟩,
    fun _ => ⟨rfl, rfl⟩⟩, fun _ => rfl, fun _ => rfl, fun _ => ⟨rfl, rfl, rfl⟩⟩
  captured _ h := absurd h (Nat.not_lt_zero _)
  hasFrame _ h := absurd h (Nat.not_lt_zero _)
  level _ h := absurd h (Nat.not_lt_zero _)
  slot _ h := absurd h (Nat.not_lt_zero _)

section Step

variable (b : Analysis) (i : Nat)

def capturedIn (b : Analysis) (i : Nat) : List Nat :=
  (b.scope i).vars.filter fun v => (b.var v).isCaptured

def needsFrame (b : Analysis) (i : Nat) : Bool := (b.scope i).isForced || !(capturedIn b i).isEmpty

def levelIn (b : Analysis) (i : Nat) : Int :=
  if needsFrame b i then outerLevel b i + 1 else outerLevel b i

theorem vars_allocateScope : (b.allocateScope none i).vars =
    assignSlots (levelIn b i) (capturedIn b i) 0 b.vars := rfl

theorem scope_allocateScope (j : Nat) : (b.allocateScope none i).scope j =
    if j = i ∧ i < b.scopes.size then
      { b.scope j with captured := capturedIn b i, hasFrame := needsFrame b i, level := levelIn b i }
    else b.scope j := getD_modify ..

theorem withScope_eq (l : Layout) (outer : Int) (hasFrame : Bool) :
    ∃ entryLevel usesContexts, l.withScope i outer hasFrame = { l with entryLevel, usesContexts } := by
  unfold Layout.withScope
  by_cases h : l.scope = i
  · rw [if_pos h]
    dsimp only
    split <;> exact ⟨_, _, rfl⟩
  · rw [if_neg h]
    dsimp only
    split <;> exact ⟨_, _, rfl⟩

theorem layout_allocateScope (f : Nat) : ∃ entryLevel usesContexts,
    (b.allocateScope none i).layout f = { b.layout f with entryLevel, usesContexts } := by
  have hlayout : (b.allocateScope none i).layout f = _ := getD_modify ..
  rw [hlayout]
  split
  · exact withScope_eq ..
  · exact ⟨_, _, rfl⟩

end Step

theorem var_allocateScope_of_notMem {v : Nat} (h : v ∉ capturedIn b i) :
    (b.allocateScope none i).var v = b.var v := getD_assignSlots_of_notMem h ..

theorem var_allocateScope {i k v : Nat} (hn : (b.scope i).vars.Nodup) (hlt : v < b.vars.size)
    (h : (capturedIn b i)[k]? = some v) :
    (b.allocateScope none i).var v = { b.var v with level := levelIn b i, index := k } := by
  refine (getD_assignSlots (hn.filter _) h 0 hlt).trans ?_
  rw [Nat.zero_add]
  rfl

theorem sameNames_allocateScope (hb : Shape b) (i : Nat) : SameNames b (b.allocateScope none i) := by
  have hvar (v : Nat) : ∃ level index, (b.allocateScope none i).var v = { b.var v with level, index } := by
    by_cases hv : v ∈ capturedIn b i
    · obtain ⟨k, hk⟩ := List.getElem?_of_mem hv
      exact ⟨_, _, var_allocateScope (hb.nodup i) (hb.listed i v (List.mem_filter.mp hv).1).1 hk⟩
    · exact ⟨_, _, var_allocateScope_of_notMem hv⟩
  have hscope (j : Nat) : ∃ captured hasFrame level, (b.allocateScope none i).scope j =
      { b.scope j with captured, hasFrame, level } := by
    rw [scope_allocateScope]
    split
    · exact ⟨_, _, _, rfl⟩
    · exact ⟨_, _, _, rfl⟩
  have hlayout := layout_allocateScope b i
  constructor
  case alike =>
    constructor
    case first => exact ⟨rfl, rfl, rfl⟩
    case sizes =>
      refine ⟨?_, Array.size_modify, Array.size_modify⟩
      rw [vars_allocateScope, size_assignSlots]
    case scope =>
      intro j
      obtain ⟨_, _, _, h⟩ := hscope j
      rw [h]
      exact ⟨rfl, rfl, rfl⟩
    case var =>
      intro v
      obtain ⟨_, _, h⟩ := hvar v
      rw [h]
      exact ⟨rfl, rfl, rfl, rfl⟩
    case layout =>
      intro f
      obtain ⟨_, _, h⟩ := hlayout f
      rw [h]
      exact ⟨rfl, rfl⟩
  case captured =>
    intro v
    obtain ⟨_, _, h⟩ := hvar v
    rw [h]
  case forced =>
    intro j
    obtain ⟨_, _, _, h⟩ := hscope j
    rw [h]
  case layout =>
    intro f
    obtain ⟨_, _, h⟩ := hlayout f
    rw [h]
    exact ⟨rfl, rfl, rfl⟩

theorem Alike.trans (hab : Alike a b) (hbc : Alike b c) : Alike a c := by
  obtain ⟨hf, hs, hscope, hvar, hlayout⟩ := hab
  obtain ⟨hf', hs', hscope', hvar', hlayout'⟩ := hbc
  constructor <;> grind

theorem SameNames.trans (hab : SameNames a b) (hbc : SameNames b c) : SameNames a c where
  alike := hab.alike.trans hbc.alike
  captured v := (hbc.captured v).trans (hab.captured v)
  forced i := (hbc.forced i).trans (hab.forced i)
  layout f := ⟨(hbc.layout f).1.trans (hab.layout f).1, (hbc.layout f).2.1.trans (hab.layout f).2.1,
    (hbc.layout f).2.2.trans (hab.layout f).2.2⟩

theorem SameNames.this_eq (h : SameNames a b) : b.member.this = a.member.this := by
  rw [Analysis.member, h.alike.first.2.2]
  exact (h.layout a.firstLayout).2.2

theorem Shape.sameNames (ha : Shape a) (h : SameNames a b) : Shape b :=
  ha.congr h.alike (fun v hv => ha.this_listed v (h.this_eq ▸ hv))
    fun v hv => ha.captured_listed v (h.captured v ▸ hv)

theorem SameNames.capturedIn_eq (h : SameNames a b) (i : Nat) : capturedIn b i = capturedIn a i := by
  simp only [capturedIn, (h.alike.scope i).2.2, h.captured]

theorem Framed.step {n : Nat} (ha : Shape a) (h : Framed a b n) (hn : n < a.scopes.size) :
    Framed a (b.allocateScope none n) (n + 1) := by
  have hb := ha.sameNames h.names
  have hnames := h.names.trans (sameNames_allocateScope hb n)
  have hsize : n < b.scopes.size := h.names.alike.sizes.2.1.symm ▸ hn
  have hnew : (b.allocateScope none n).scope n = { b.scope n with
      captured := capturedIn b n, hasFrame := needsFrame b n, level := levelIn b n } :=
    (scope_allocateScope b n n).trans (if_pos ⟨rfl, hsize⟩)
  have hold (i : Nat) (hi : i < n) : (b.allocateScope none n).scope i = b.scope i :=
    (scope_allocateScope b n i).trans (if_neg fun h => Nat.ne_of_lt hi h.1)
  have hparent (i : Nat) : ((b.allocateScope none n).scope i).parent = (b.scope i).parent :=
    ((sameNames_allocateScope hb n).alike.scope i).1
  -- The scope around one of these is older, so its level is final.
  have houter (i : Nat) (hi : i ≤ n) : outerLevel (b.allocateScope none n) i = outerLevel b i := by
    rw [outerLevel, hparent, outerLevel]
    cases hp : (b.scope i).parent with
    | none => rfl
    | some p => exact congrArg Scope.level (hold p (Nat.lt_of_lt_of_le (hb.parent_lt i p hp) hi))
  constructor
  case names => exact hnames
  case captured =>
    intro i hi
    obtain hi | rfl := Nat.lt_or_eq_of_le (Nat.le_of_lt_succ hi)
    · rw [hold i hi]
      exact h.captured i hi
    · rw [hnew]
      exact h.names.capturedIn_eq i
  case hasFrame =>
    intro i hi
    obtain hi | rfl := Nat.lt_or_eq_of_le (Nat.le_of_lt_succ hi)
    · rw [hold i hi]
      exact h.hasFrame i hi
    · rw [hnew, ← h.names.forced i]
      rfl
  case level =>
    intro i hi
    rw [houter i (Nat.le_of_lt_succ hi)]
    obtain hi | rfl := Nat.lt_or_eq_of_le (Nat.le_of_lt_succ hi)
    · rw [hold i hi]
      exact h.level i hi
    · simp only [hnew, levelIn]
      split
      · rfl
      · exact (Int.add_zero _).symm
  case slot =>
    intro i hi k v hv
    obtain hi | rfl := Nat.lt_or_eq_of_le (Nat.le_of_lt_succ hi)
    · rw [hold i hi] at hv ⊢
      have hmem : v ∈ (b.scope i).vars := by
        have hv' := List.mem_of_getElem? hv
        rw [h.captured i hi, ← (h.names.alike.scope i).2.2] at hv'
        exact (List.mem_filter.mp hv').1
      have hnot : v ∉ capturedIn b n := fun hv' =>
        Nat.ne_of_lt hi ((hb.listed i v hmem).2.1.symm.trans
          (hb.listed n v (List.mem_filter.mp hv').1).2.1)
      rw [var_allocateScope_of_notMem hnot]
      exact h.slot i hi k v hv
    · rw [hnew] at hv ⊢
      have hmem : v ∈ (b.scope i).vars := (List.mem_filter.mp (List.mem_of_getElem? hv)).1
      rw [var_allocateScope (hb.nodup i) (hb.listed i v hmem).1 hv]
      exact ⟨rfl, rfl⟩

/-- The first `n` scopes of an analysis get their frames. -/
def Analysis.framesUpTo (a : Analysis) (enclosing : Option Nat) (n : Nat) : Analysis :=
  (List.range n).foldl (fun b i => b.allocateScope enclosing (b.firstScope + i)) a

theorem framesUpTo_succ (a : Analysis) (enclosing : Option Nat) (n : Nat) :
    a.framesUpTo enclosing (n + 1) = (a.framesUpTo enclosing n).allocateScope enclosing
      ((a.framesUpTo enclosing n).firstScope + n) := by
  rw [Analysis.framesUpTo, List.range_succ, List.foldl_append]
  rfl

theorem framed_framesUpTo (ha : Shape a) {n : Nat} (hn : n ≤ a.scopes.size) :
    Framed a (a.framesUpTo none n) n := by
  induction n with
  | zero => exact framed_zero a
  | succ n ih =>
    have hb := ih (Nat.le_of_succ_le hn)
    rw [framesUpTo_succ, hb.names.alike.first.2.1, ha.first.2.1, Nat.zero_add]
    exact hb.step ha hn

theorem framed_allocate (ha : Shape a) : Framed a (a.allocate none) a.scopes.size := by
  have hframed := framed_framesUpTo ha (Nat.le_refl _)
  rwa [Analysis.allocate, ha.first.2.1]

end Flowgraph.Scoping
