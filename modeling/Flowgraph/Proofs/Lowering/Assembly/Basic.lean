import Flowgraph.Graph.Effect
import Flowgraph.Proofs.Graph.Code
import Flowgraph.Proofs.Lowering.Idle
import Mathlib.Algebra.Order.Field.Basic
import Mathlib.Algebra.Order.Field.Rat
import Mathlib.Data.List.Forall2
import Mathlib.Data.List.Perm.Basic
import Mathlib.Data.List.Perm.Lattice
import Mathlib.Order.Interval.Set.Basic

/-! # Notes on code

Each instruction is noted with the values that have been computed whenever control
reaches it, with the handler that covers it, and with a rank. Every value on the stack
is used at most once, and every fragment in hand is put into place at most once.

The regions agree along the links of the code and with the entries of blocks, and an
instruction that may throw is covered by the innermost try statement around its
source. The handlers made so far belong to the try statements that are done.

Links do not lead to lower ranks, except behind a check, and jumps lead to higher
ranks, except those that continue to a case. The code of a statement gets the ranks
of an interval. Since there is a rank between any two ranks, the interval can be
divided among the parts of the statement, and the joins that breaks and cases ask
for later have their marks reserved.
-/

namespace Flowgraph.Graph

def Op.isCheck : Op → Bool
  | .checkStackOverflow _ => true
  | _ => false

/-- Whether the instruction was made to continue to a case. -/
def Instruction.continues (x : Instruction) : Bool :=
  match x.origin with
  | some (.continueTo _) => true
  | _ => false

end Flowgraph.Graph

namespace Flowgraph.Lowering

open Flowgraph.Graph (Code Fragment Instruction Op)

/-- The handler that covers what stands in the given try bodies, innermost first. -/
def coverOf (within : List Nat) : Int := (within.map Int.ofNat).headD Graph.noTry

/-- The index of one of the first `n` try statements. -/
def IsTry (n : Nat) (t : Int) : Prop := ∃ k : Nat, k < n ∧ t = k

/-- A handler among those of the first `n` try statements, or none. -/
def IsRegion (n : Nat) (t : Int) : Prop := t = Graph.noTry ∨ IsTry n t

/-- The try statement that a block handles. -/
def handled (c : Code) (i : Nat) : Option Int :=
  match c.op i with
  | .entry { kind := .handler t .., .. } => some t
  | _ => none

/-- Which try statements are meant by a list of indices. -/
def asHandled (ts : List Nat) : List (Option Int) := ts.map fun t : Nat => some (t : Int)

/-- A block starts here. -/
def IsBlock (c : Code) (i : Nat) : Prop := i < c.size ∧ ∃ e, c.op i = .entry e

/-! ## Marks -/

structure Mark where
  region : Int
  rank : ℚ

namespace Mark

/-- Marks are compared by their ranks, in one region. -/
instance : Preorder Mark where
  le p q := p.region = q.region ∧ p.rank ≤ q.rank
  lt p q := p.region = q.region ∧ p.rank < q.rank
  le_refl _ := ⟨rfl, le_rfl⟩
  le_trans _ _ _ h h' := ⟨h.1.trans h'.1, h.2.trans h'.2⟩
  lt_iff_le_not_ge _ _ := ⟨fun h => ⟨⟨h.1, h.2.le⟩, fun h' => h.2.not_ge h'.2⟩,
    fun h => ⟨h.1.1, lt_of_not_ge fun h' => h.2 ⟨h.1.1.symm, h'⟩⟩⟩

instance : DenselyOrdered Mark where
  dense p q h := by
    obtain ⟨m, hpm, hmq⟩ := exists_between h.2
    exact ⟨⟨p.region, m⟩, ⟨rfl, hpm⟩, h.1, hmq⟩

theorem exists_strictMono {p q : Mark} (h : p < q) :
    ∃ R : Nat → Mark, StrictMono R ∧ ∀ k, p < R k ∧ R k < q := by
  have : Nonempty (Set.Ioo p q) := Set.nonempty_Ioo_subtype h
  obtain ⟨R, hR⟩ := Nat.exists_strictMono (Set.Ioo p q)
  exact ⟨fun k => R k, fun i j hij => hR hij, fun k => (R k).2⟩

/-- The same rank in another region. -/
def inRegion (p : Mark) (r : Int) : Mark := { p with region := r }

end Mark

/-! ## Regions -/

section Regions

variable {c d : Code} {n k i : Nat} {t : Int}

theorem IsTry.mono (h : IsTry n t) (hn : n ≤ k) : IsTry k t := by
  obtain ⟨i, hi, rfl⟩ := h
  exact ⟨i, hi.trans_le hn, rfl⟩

theorem IsRegion.mono (h : IsRegion n t) (hn : n ≤ k) : IsRegion k t := h.imp_right (·.mono hn)

theorem IsRegion.lt (h : IsRegion n t) : t < n := by
  rcases h with rfl | ⟨k, hk, rfl⟩
  · simp only [Graph.noTry]
    omega
  · exact_mod_cast hk

theorem isRegion_headD {ts : List Int} (h : ∀ t ∈ ts, IsTry n t) :
    IsRegion n (ts.headD Graph.noTry) := by
  cases ts with
  | nil => exact .inl rfl
  | cons t ts => exact .inr (h t List.mem_cons_self)

theorem handled_congr (h : d.op i = c.op i) : handled d i = handled c i := by
  unfold handled
  rw [h]

theorem handled_handler {e : Graph.Entry} (h : c.op i = .entry e) :
    handled c i = some t ↔ ∃ guards a b, e.kind = .handler t guards a b := by
  unfold handled
  rw [h]
  rcases e with ⟨_ | _ | _ | _ | _, _, _⟩ <;> simp

end Regions

namespace Assembly

/-- The values on the stack, the top first. -/
def values (s : State) : List Nat := s.stack.map (·.definition)

/-- What is known whenever control reaches an instruction. -/
structure Note where
  values : List Nat
  mark : Mark

/-- Between statements there are no values. -/
instance : Coe Mark Note := ⟨fun p => ⟨[], p⟩⟩

/-- Control may go from one to the other without a jump. -/
instance : Preorder Note where
  le a b := b.values ⊆ a.values ∧ a.mark ≤ b.mark
  le_refl _ := ⟨List.Subset.refl _, le_rfl⟩
  le_trans _ _ _ h h' := ⟨List.Subset.trans h'.1 h.1, h.2.trans h'.2⟩

abbrev Notes := Nat → Note

/-- Behind `i` control may go on to code with the note `b`. If the code is `ordered`, the rank does
not fall, except behind a check. -/
structure Leads (ordered : Bool) (c : Code) (γ : Notes) (i : Nat) (b : Note) : Prop where
  values : ∀ d ∈ b.values, d ∈ (γ i).values ∨ d = i ∧ (c.op i).isDefinition = true
  region : (γ i).mark.region = b.mark.region
  rank : ordered = true → (c.op i).isCheck = false → (γ i).mark.rank ≤ b.mark.rank

/-- A jump with the note `a` may lead to the block at `i`. It goes forward, or continues to a
case. -/
structure Ahead (kind : Op → Bool) (c : Code) (γ : Notes) (a : Note) (continues : Bool)
    (i : Nat) : Prop where
  pos : 0 < i
  lt : i < c.size
  kind : kind (c.op i) = true
  values : (γ i).values ⊆ a.values
  rank : continues = true ∨ a.mark.rank < (γ i).mark.rank

/-- The block at `i` is of a certain kind and has the note `a`. -/
structure Placed (kind : Op → Bool) (c : Code) (γ : Notes) (a : Note) (i : Nat) : Prop where
  pos : 0 < i
  lt : i < c.size
  kind : kind (c.op i) = true
  note : γ i = a

/-- The notes are right: links and jumps lead to code that may follow, and nothing but what is
noted is used. No two links lead to one place. -/
structure Sound (ordered : Bool) (c : Code) (γ : Notes) : Prop where
  size : 1 < c.size
  root : ∃ b, c.op 0 = .entry { kind := .graph (some 1) [] [], block := b }
  start : ∃ b, c.op 1 = .entry { kind := .function, block := b }
  links : ∀ i j, (c.get i).next = some j → j < c.size ∧ Leads ordered c γ i (γ j)
  owned : ∀ i k j, (c.get i).next = some j → (c.get k).next = some j → i = k
  jumps : ∀ i t, c.op i = .goto t → Ahead Op.isJoin c γ (γ i) (c.get i).continues t
  sides : ∀ i, ∀ t ∈ (c.op i).sides, Ahead Op.isTarget c γ (γ i) (c.get i).continues t
  inputs : ∀ i, ∀ u ∈ (c.op i).inputs, ∃ d ∈ (γ i).values, u = some d
  roots : ∀ i, 0 < i → (c.op i).isRoot = false
  throws : ∀ i, (c.op i).mayThrow = true → (γ i).mark.region = coverOf (c.get i).within

/-- Nothing leads to the entries of the fragments and nothing follows their exits. -/
structure Hands (c : Code) (L : List Fragment) : Prop where
  entries : (L.filterMap (·.entry)).Nodup
  exits : (L.filterMap (·.exit)).Nodup
  entry : ∀ f ∈ L, ∀ e, f.entry = some e → e < c.size ∧ ∀ i, (c.get i).next ≠ some e
  exit : ∀ f ∈ L, ∀ x, f.exit = some x → x < c.size ∧ (c.get x).next = none

/-- The values of `vs` are not used yet, and no value is used twice. -/
structure Unused (vs : List Nat) (c : Code) : Prop where
  nodup : (vs ++ c.collect Op.used).Nodup
  bound : ∀ d ∈ vs ++ c.collect Op.used, d < c.size

/-- No two blocks have one id, and `next` is the id of no block. -/
structure Blocks (c : Code) (next : Int) : Prop where
  nodup : (c.collect Op.blockId).Nodup
  bound : ∀ b ∈ c.collect Op.blockId, b < next

/-- The joins of a jump target get the mark `p`, which is where the target is. -/
structure Reserved (n : Nat) (c : Code) (γ : Notes) (l : Landing) (p : Mark)
    (joins : Nat → Prop) : Prop where
  region : l.tryIndex = p.region
  isRegion : IsRegion n p.region
  placed : ∀ j, joins j → Placed Op.isJoin c γ p j

/-- What is around the place where code is made: the try bodies and the handlers, the try
statements that have no handler yet, and the marks for the ends of labeled statements and for the
cases of switches, innermost first. -/
structure Kept where
  tries : List Int := []
  caught : List Caught := []
  owed : List Nat := []
  labels : List Mark := []
  cases : List (Nat → Mark) := []

/-- The regions of the code and what is around the state. -/
structure Regions (s : State) (γ : Notes) (P : Kept) : Prop where
  blocks : ∀ i e, i < s.code.size → s.code.op i = .entry e →
    e.tryIndex = (γ i).mark.region ∧ IsRegion s.nextTry e.tryIndex
  rethrows : ∀ i a b t, s.code.op i = .rethrow a b t → IsTry s.nextTry t
  founded : ∀ i e t, i < s.code.size → s.code.op i = .entry e → handled s.code i = some t →
    e.tryIndex < t
  table : List.Perm (s.handlers.map (handled s.code) ++ asHandled P.owed)
    (asHandled (List.range s.nextTry))
  tries : s.tries = P.tries ∧ ∀ t ∈ P.tries, IsTry s.nextTry t
  caught : s.caught = P.caught ∧ ∀ c ∈ P.caught, IsTry s.nextTry c.tryIndex
  labels : List.Forall₂ (fun b p => Reserved s.nextTry s.code γ b.landing p (· ∈ b.destination))
    s.breakables P.labels
  cases : List.Forall₂ (fun t R => ∀ k, Reserved s.nextTry s.code γ t.landing (R k)
    fun j => (k, j) ∈ t.destinations) s.switches P.cases

/-- The state, its notes, what is around it and the fragments in hand. -/
structure Inv (ordered : Bool) (s : State) (γ : Notes) (P : Kept) (L : List Fragment) : Prop where
  sound : Sound ordered s.code γ
  hands : Hands s.code L
  unused : Unused (values s) s.code
  sides : (s.code.collect Op.sides).Nodup
  blocks : Blocks s.code s.nextBlock
  handlers : ∀ h ∈ s.handlers, 0 < h ∧ h < s.code.size ∧ (s.code.op h).isHandler = true ∧
    (γ h).values = []
  regions : Regions s γ P

/-- The code has grown, and its notes and links stay. -/
structure Grows (c : Code) (γ : Notes) (c' : Code) (γ' : Notes) : Prop where
  size : c.size ≤ c'.size
  ops : ∀ i < c.size, c'.op i = c.op i
  notes : ∀ i < c.size, γ' i = γ i
  links : ∀ i j, (c.get i).next = some j → (c'.get i).next = some j

/-- What making code leaves as it is. -/
structure Step (s : State) (γ : Notes) (s' : State) (γ' : Notes) : Prop
    extends Grows s.code γ s'.code γ' where
  nextTry : s.nextTry ≤ s'.nextTry

/-- Control that enters the fragment with the note `a` leaves it with `b`. -/
structure Spans (ordered : Bool) (c : Code) (γ : Notes) (a : Note) (f : Fragment) (b : Note) :
    Prop where
  entry : ∀ e, f.entry = some e → e < c.size ∧ a ≤ γ e
  exit : ∀ x, f.exit = some x → x < c.size ∧ Leads ordered c γ x b
  empty : f.entry = none → a ≤ b

/-- What only statements change: the targets of jumps, and what is noted about switches. -/
def around (s : State) :
    List Breakable × List SwitchTargets × List Graph.SwitchLayout × List (Option Nat × Nat) :=
  (s.breakables, s.switches, s.sources.switches, s.sources.continues)

/-- Apart from code, values and blocks, the states differ in nothing that matters. -/
structure Beside (s s' : State) : Prop where
  handlers : s'.handlers = s.handlers
  nextTry : s'.nextTry = s.nextTry
  tries : s'.tries = s.tries
  caught : s'.caught = s.caught
  around : around s' = around s

/-- The states differ in nothing that matters. -/
structure Same (s s' : State) : Prop extends Beside s s' where
  code : s'.code = s.code
  values : values s' = values s
  nextBlock : s'.nextBlock = s.nextBlock

section Lemmas

variable {o b : Bool} {kind : Op → Bool} {s s' s'' : State} {γ γ' γ'' : Notes} {P : Kept}
  {L L' : List Fragment} {f g : Fragment} {c c' c'' : Code} {T S vs : List Nat} {x : Instruction}
  {a m m' z : Note} {A : List Nat} {p q : Mark} {i j n k : Nat}

/-! ## Growing code -/

theorem Grows.refl (c : Code) (γ : Notes) : Grows c γ c γ :=
  ⟨le_rfl, fun _ _ => rfl, fun _ _ => rfl, fun _ _ h => h⟩

theorem Grows.trans (h : Grows c γ c' γ') (g : Grows c' γ' c'' γ'') : Grows c γ c'' γ'' where
  size := h.size.trans g.size
  ops i hi := (g.ops i (hi.trans_le h.size)).trans (h.ops i hi)
  notes i hi := (g.notes i (hi.trans_le h.size)).trans (h.notes i hi)
  links i j hij := g.links i j (h.links i j hij)

theorem grows_push : Grows c γ (c.push x) (Function.update γ c.size a) where
  size := by simp
  ops i hi := Code.op_push_of_lt hi
  notes i hi := Function.update_of_ne (Nat.ne_of_lt hi) _ _
  links i j hij := by rwa [Code.get_push_of_lt (Code.lt_of_next hij)]

theorem grows_link (hi : i < c.size) (hj : j < c.size) (hn : (c.get i).next = none) :
    Grows c γ (c.link i j) γ := by
  refine ⟨Code.size_link.ge, fun _ _ => Code.op_link hi hj, fun _ _ => rfl, fun k l hkl => ?_⟩
  have hne : k ≠ i := fun hk => by rw [hk, hn] at hkl; cases hkl
  rw [Code.get_link c i j k hi hj]
  simpa [hne] using hkl

theorem Leads.until (h : Leads o c γ i m) (hm : m ≤ z) : Leads o c γ i z where
  values d hd := h.values d (hm.1 hd)
  region := h.region.trans hm.2.1
  rank ho hc := (h.rank ho hc).trans hm.2.2

theorem Leads.grow (h : Leads o c γ i m) (hg : Grows c γ c' γ') (hi : i < c.size) :
    Leads o c' γ' i m := by
  obtain ⟨hvalues, hregion, hrank⟩ := h
  have hnote := hg.notes i hi
  have hop := hg.ops i hi
  exact ⟨by rwa [hnote, hop], by rwa [hnote], by rwa [hnote, hop]⟩

theorem Ahead.grow (h : Ahead kind c γ a b i) (hg : Grows c γ c' γ') : Ahead kind c' γ' a b i := by
  obtain ⟨hpos, hlt, hkind, hvalues, hrank⟩ := h
  have hnote := hg.notes i hlt
  exact ⟨hpos, hlt.trans_le hg.size, by rwa [hg.ops i hlt], by rwa [hnote], by rwa [hnote]⟩

theorem Placed.grow (h : Placed kind c γ a i) (hg : Grows c γ c' γ') : Placed kind c' γ' a i :=
  ⟨h.pos, h.lt.trans_le hg.size, hg.ops i h.lt ▸ h.kind, (hg.notes i h.lt).trans h.note⟩

theorem Reserved.grow {l : Landing} {joins : Nat → Prop} (h : Reserved n c γ l p joins) (hn : n ≤ k)
    (hg : Grows c γ c' γ') : Reserved k c' γ' l p joins :=
  ⟨h.region, h.isRegion.mono hn, fun j hj => (h.placed j hj).grow hg⟩

theorem Spans.grow (h : Spans o c γ a f z) (hg : Grows c γ c' γ') : Spans o c' γ' a f z where
  entry e he := ⟨(h.entry e he).1.trans_le hg.size, hg.notes e (h.entry e he).1 ▸ (h.entry e he).2⟩
  exit x hx := ⟨(h.exit x hx).1.trans_le hg.size, (h.exit x hx).2.grow hg (h.exit x hx).1⟩
  empty := h.empty

theorem Step.refl (s : State) (γ : Notes) : Step s γ s γ := ⟨.refl _ _, le_rfl⟩

theorem Step.trans (h : Step s γ s' γ') (g : Step s' γ' s'' γ'') : Step s γ s'' γ'' :=
  ⟨h.toGrows.trans g.toGrows, h.nextTry.trans g.nextTry⟩

theorem Placed.step (h : Placed kind s.code γ a i) (st : Step s γ s' γ') :
    Placed kind s'.code γ' a i := h.grow st.toGrows

theorem Ahead.step (h : Ahead kind s.code γ a b i) (st : Step s γ s' γ') :
    Ahead kind s'.code γ' a b i := h.grow st.toGrows

theorem Spans.step (h : Spans o s.code γ a f z) (st : Step s γ s' γ') : Spans o s'.code γ' a f z :=
  h.grow st.toGrows

theorem breakables_of_around (h : around s' = around s) : s'.breakables = s.breakables :=
  congrArg (·.1) h

theorem switches_of_around (h : around s' = around s) : s'.switches = s.switches :=
  congrArg (·.2.1) h

theorem layouts_of_around (h : around s' = around s) : s'.sources.switches = s.sources.switches :=
  congrArg (·.2.2.1) h

theorem continues_of_around (h : around s' = around s) :
    s'.sources.continues = s.sources.continues :=
  congrArg (·.2.2.2) h

theorem Beside.refl (s : State) : Beside s s := ⟨rfl, rfl, rfl, rfl, rfl⟩

theorem Beside.trans (h : Beside s s') (g : Beside s' s'') : Beside s s'' :=
  ⟨g.1.trans h.1, g.2.trans h.2, g.3.trans h.3, g.4.trans h.4, g.5.trans h.5⟩

theorem Same.refl (s : State) : Same s s := ⟨.refl s, rfl, rfl, rfl⟩

theorem Same.trans (h : Same s s') (g : Same s' s'') : Same s s'' :=
  ⟨h.toBeside.trans g.toBeside, g.2.trans h.2, g.3.trans h.3, g.4.trans h.4⟩

theorem Same.step (h : Same s s') (γ : Notes) : Step s γ s' γ :=
  ⟨h.code ▸ .refl _ _, h.nextTry.ge⟩

/-! ## Fragments -/

theorem Placed.spans (h : Placed kind c γ a i) : Spans o c γ a (.single i) a where
  entry := by
    rintro _ ⟨⟩
    exact ⟨h.lt, h.note.ge⟩
  exit := by
    rintro _ ⟨⟩
    exact ⟨h.lt, fun d hd => .inl (h.note ▸ hd), by rw [h.note], fun _ _ => by rw [h.note]⟩
  empty := nofun

theorem Placed.ahead (h : Placed kind c γ z i) (hv : z.values ⊆ a.values)
    (hr : a.mark.rank < z.mark.rank) : Ahead kind c γ a false i :=
  ⟨h.pos, h.lt, h.kind, h.note ▸ hv, .inr (h.note ▸ hr)⟩

theorem Placed.before (h : Placed kind c γ ⟨A, q⟩ i) (hr : p.rank < q.rank) :
    Ahead kind c γ ⟨A, p⟩ false i := h.ahead (List.Subset.refl A) hr

theorem Placed.continued (h : Placed kind c γ ⟨A, q⟩ i) (p : Mark) : Ahead kind c γ ⟨A, p⟩ true i :=
  ⟨h.pos, h.lt, h.kind, by rw [h.note]; exact fun _ hx => hx, .inl rfl⟩

theorem Ahead.from (h : Ahead kind c γ ⟨A, q⟩ b i) (hp : p ≤ q) : Ahead kind c γ ⟨A, p⟩ b i :=
  { h with rank := h.rank.imp_right hp.2.trans_lt }

theorem spans_empty (h : a ≤ z) : Spans o c γ a .empty z := ⟨nofun, nofun, fun _ => h⟩

theorem Spans.weaken (h : Spans o c γ a f m) (hm : m ≤ z) : Spans o c γ a f z :=
  ⟨h.entry, fun x hx => (h.exit x hx).imp_right (·.until hm), fun he => (h.empty he).trans hm⟩

theorem Spans.until (h : Spans o c γ a f ⟨A, p⟩) (hq : p ≤ q) : Spans o c γ a f ⟨A, q⟩ :=
  h.weaken ⟨List.Subset.refl _, hq⟩

theorem Spans.from (h : Spans o c γ ⟨A, q⟩ f z) (hp : p ≤ q) : Spans o c γ ⟨A, p⟩ f z :=
  have hle : (⟨A, p⟩ : Note) ≤ ⟨A, q⟩ := ⟨List.Subset.refl _, hp⟩
  ⟨fun e he => (h.entry e he).imp_right hle.trans, h.exit, fun he => hle.trans (h.empty he)⟩

theorem Spans.exits (h : Spans o c γ a f m) (hg : Spans o c γ m' g z) (hp : f.entry = none → a ≤ z) :
    Spans o c γ a ⟨f.entry, g.exit⟩ z := ⟨h.entry, hg.exit, hp⟩

theorem Spans.leavingAt (h : Spans o c γ a f z) (hi : Placed kind c γ z i) :
    Spans o c γ a (f.exitingAt i) z := h.exits hi.spans h.empty

theorem Spans.exitingAt (h : Spans o c γ a f m) (hi : Placed kind c γ z i) (hp : a ≤ z) :
    Spans o c γ a (f.exitingAt i) z := h.exits hi.spans fun _ => hp

theorem Spans.closed (h : Spans o c γ a f m) (hp : a ≤ z) : Spans o c γ a f.closed z :=
  ⟨h.entry, nofun, fun _ => hp⟩

theorem Spans.anywhere (h : Spans o c γ a f m) (hf : f.isClosed = true) : Spans o c γ a f z := by
  rcases f with ⟨_ | e, _ | x⟩ <;> simp [Fragment.isClosed, Fragment.isOpen] at hf
  exact ⟨h.entry, nofun, nofun⟩

/-! ## Fragments in hand -/

theorem Hands.perm (h : Hands c L) (hp : L.Perm L') : Hands c L' where
  entries := (hp.filterMap _).nodup_iff.mp h.entries
  exits := (hp.filterMap _).nodup_iff.mp h.exits
  entry f hf := h.entry f (hp.mem_iff.mpr hf)
  exit f hf := h.exit f (hp.mem_iff.mpr hf)

theorem Hands.sublist (h : Hands c L) (hs : L'.Sublist L) : Hands c L' where
  entries := h.entries.sublist (hs.filterMap _)
  exits := h.exits.sublist (hs.filterMap _)
  entry f hf := h.entry f (hs.subset hf)
  exit f hf := h.exit f (hs.subset hf)

theorem Hands.closed (h : Hands c (f :: L)) : Hands c (f.closed :: L) where
  entries := h.entries
  exits := by
    have := (h.sublist (List.sublist_cons_self f L)).exits
    simpa [Fragment.closed] using this
  entry g hg := by
    rcases List.mem_cons.mp hg with rfl | hg
    · exact h.entry f List.mem_cons_self
    · exact h.entry g (List.mem_cons_of_mem _ hg)
  exit g hg := by
    rcases List.mem_cons.mp hg with rfl | hg
    · simp [Fragment.closed]
    · exact h.exit g (List.mem_cons_of_mem _ hg)

theorem Hands.entryExit (h : Hands c (f :: g :: L)) : Hands c (⟨f.entry, g.exit⟩ :: L) where
  entries := by
    have hs : (f :: L).Sublist (f :: g :: L) := (List.sublist_cons_self g L).cons_cons f
    simpa [List.filterMap_cons] using (h.sublist hs).entries
  exits := by
    simpa [List.filterMap_cons] using (h.sublist (List.sublist_cons_self f _)).exits
  entry k hk := by
    rcases List.mem_cons.mp hk with rfl | hk
    · exact h.entry f List.mem_cons_self
    · exact h.entry k (by simp [hk])
  exit k hk := by
    rcases List.mem_cons.mp hk with rfl | hk
    · exact h.exit g (by simp)
    · exact h.exit k (by simp [hk])

theorem Hands.push (h : Hands c L) (hn : x.next = none)
    (hb : ∀ i j, (c.get i).next = some j → j < c.size) :
    Hands (c.push x) (.single c.size :: L) := by
  have hentry : ∀ e ∈ L.filterMap (·.entry), e < c.size := fun e he => by
    obtain ⟨f, hf, hfe⟩ := List.mem_filterMap.mp he
    exact (h.entry f hf e hfe).1
  have hexit : ∀ e ∈ L.filterMap (·.exit), e < c.size := fun e he => by
    obtain ⟨f, hf, hfe⟩ := List.mem_filterMap.mp he
    exact (h.exit f hf e hfe).1
  have hnext : ∀ i j, (Code.get (c.push x) i).next = some j → (c.get i).next = some j := by
    intro i j hij
    rw [Code.get_push] at hij
    split at hij
    · rw [hn] at hij
      cases hij
    · exact hij
  constructor
  · exact List.nodup_cons.mpr ⟨fun hm => Nat.lt_irrefl _ (hentry _ hm), h.entries⟩
  · exact List.nodup_cons.mpr ⟨fun hm => Nat.lt_irrefl _ (hexit _ hm), h.exits⟩
  · intro f hf e he
    rcases List.mem_cons.mp hf with rfl | hf
    · obtain rfl := Option.some.inj he
      exact ⟨by simp, fun i hi => Nat.lt_irrefl _ (hb i _ (hnext i _ hi))⟩
    · obtain ⟨hlt, hno⟩ := h.entry f hf e he
      exact ⟨hlt.trans (by simp), fun i hi => hno i (hnext i e hi)⟩
  · intro f hf y hy
    rcases List.mem_cons.mp hf with rfl | hf
    · obtain rfl := Option.some.inj hy
      exact ⟨by simp, by rw [Code.get_push_size, hn]⟩
    · obtain ⟨hlt, hno⟩ := h.exit f hf y hy
      exact ⟨hlt.trans (by simp), by rw [Code.get_push_of_lt hlt, hno]⟩

/-- Putting one fragment behind another uses up the exit and the entry where they meet. -/
theorem Hands.link {fe fx ge : Nat} {gx : Option Nat}
    (h : Hands c (⟨some fe, some fx⟩ :: ⟨some ge, gx⟩ :: L)) :
    Hands (c.link fx ge) (⟨some fe, gx⟩ :: L) := by
  have hfx := (h.exit _ List.mem_cons_self fx rfl).1
  have hge := (h.entry _ (List.mem_cons_of_mem _ List.mem_cons_self) ge rfl).1
  have hsub := h.entryExit
  have hne : ∀ k ∈ (⟨some fe, gx⟩ :: L : List Fragment), k.entry ≠ some ge := by
    have := h.entries
    simp only [List.filterMap_cons, List.nodup_cons, List.mem_cons, List.mem_filterMap,
      not_or, not_exists, not_and] at this
    rintro k (_ | ⟨_, hk⟩)
    · exact fun hk => this.1.1 (Option.some.inj hk)
    · exact this.2.1 k hk
  have hnot : fx ∉ (⟨some ge, gx⟩ :: L : List Fragment).filterMap (·.exit) :=
    (List.nodup_cons.mp h.exits).1
  have hnx : ∀ k ∈ (⟨some fe, gx⟩ :: L : List Fragment), k.exit ≠ some fx := by
    rintro k (_ | ⟨_, hk⟩) hkx
    · exact hnot (List.mem_filterMap.mpr ⟨⟨some ge, gx⟩, List.mem_cons_self, hkx⟩)
    · exact hnot (List.mem_filterMap.mpr ⟨k, List.mem_cons_of_mem _ hk, hkx⟩)
  constructor
  · exact hsub.entries
  · exact hsub.exits
  · intro k hk e he
    obtain ⟨hlt, hno⟩ := hsub.entry k hk e he
    refine ⟨by rwa [Code.size_link], fun i hi => ?_⟩
    rw [Code.get_link c fx ge i hfx hge] at hi
    dsimp only at hi
    split at hi
    · exact hne k hk (he.trans hi.symm)
    · exact hno i hi
  · intro k hk y hy
    obtain ⟨hlt, hno⟩ := hsub.exit k hk y hy
    refine ⟨by rwa [Code.size_link], ?_⟩
    rw [Code.get_link c fx ge y hfx hge]
    have : y ≠ fx := fun hyx => hnx k hk (hyx ▸ hy)
    simpa [this] using hno

/-! ## Instructions -/

/-- A new instruction with the note `a` uses what is noted and jumps to where it may. -/
structure Fits (n : Nat) (c : Code) (γ : Notes) (x : Instruction) (a : Note) : Prop where
  next : x.next = none
  inputs : ∀ u ∈ x.op.inputs, ∃ d ∈ a.values, u = some d
  jump : ∀ t, x.op = .goto t → Ahead Op.isJoin c γ a x.continues t
  sides : ∀ t ∈ x.op.sides, Ahead Op.isTarget c γ a x.continues t
  root : x.op.isRoot = false
  throws : x.op.mayThrow = true → a.mark.region = coverOf x.within
  entry : ∀ e, x.op = .entry e → e.tryIndex = a.mark.region ∧ IsRegion n a.mark.region ∧
    ∀ t guards y z, e.kind = .handler t guards y z → a.mark.region < t
  rethrow : ∀ y z t, x.op = .rethrow y z t → IsTry n t

theorem get_push_of_ne (hi : i ≠ c.size) : Code.get (c.push x) i = c.get i := by
  rw [Code.get_push, if_neg hi]

theorem op_push_of_ne (hi : i ≠ c.size) : Code.op (c.push x) i = c.op i := by
  rw [Code.op, get_push_of_ne hi]
  rfl

theorem Sound.push (h : Sound o c γ) (hx : Fits n c γ x a) :
    Sound o (c.push x) (Function.update γ c.size a) := by
  have hgrows : Grows c γ (c.push x) (Function.update γ c.size a) := grows_push
  have hγ : ∀ k, k ≠ c.size → Function.update γ c.size a k = γ k := fun k hk =>
    Function.update_of_ne hk _ _
  have hlink : ∀ i j, (Code.get (c.push x) i).next = some j → (c.get i).next = some j := by
    intro i j hij
    by_cases hi : i = c.size
    · rw [hi, Code.get_push_size, hx.next] at hij
      cases hij
    · rwa [get_push_of_ne hi] at hij
  refine
    { size := h.size.trans_le hgrows.size
      root := h.root.imp fun b hb => (hgrows.ops 0 (Nat.zero_lt_of_lt h.size)).trans hb
      start := h.start.imp fun b hb => (hgrows.ops 1 h.size).trans hb
      links := fun i j hij => ?_
      owned := fun i k j hij hkj => h.owned i k j (hlink i j hij) (hlink k j hkj)
      jumps := fun i t hit => ?_, sides := fun i t hit => ?_, inputs := fun i u hu => ?_
      roots := fun i hi => ?_, throws := fun i hi => ?_ }
  · obtain ⟨hj, hleads⟩ := h.links i j (hlink i j hij)
    rw [hγ j (Nat.ne_of_lt hj)]
    exact ⟨hj.trans_le hgrows.size, hleads.grow hgrows (Code.lt_of_next (hlink i j hij))⟩
  · by_cases hi : i = c.size
    · rw [hi, Code.op_push_size] at hit
      rw [hi, Function.update_self, Code.get_push_size]
      exact (hx.jump t hit).grow hgrows
    · rw [op_push_of_ne hi] at hit
      rw [hγ i hi, get_push_of_ne hi]
      exact (h.jumps i t hit).grow hgrows
  · by_cases hi : i = c.size
    · rw [hi, Code.op_push_size] at hit
      rw [hi, Function.update_self, Code.get_push_size]
      exact (hx.sides t hit).grow hgrows
    · rw [op_push_of_ne hi] at hit
      rw [hγ i hi, get_push_of_ne hi]
      exact (h.sides i t hit).grow hgrows
  · by_cases hi : i = c.size
    · rw [hi, Code.op_push_size] at hu
      rw [hi, Function.update_self]
      exact hx.inputs u hu
    · rw [op_push_of_ne hi] at hu
      rw [hγ i hi]
      exact h.inputs i u hu
  · by_cases hic : i = c.size
    · rw [hic, Code.op_push_size]
      exact hx.root
    · rw [op_push_of_ne hic]
      exact h.roots i hi
  · by_cases hic : i = c.size
    · rw [hic, Code.op_push_size] at hi
      rw [hic, Function.update_self, Code.get_push_size]
      exact hx.throws hi
    · rw [op_push_of_ne hic] at hi
      rw [hγ i hic, get_push_of_ne hic]
      exact h.throws i hi

theorem Sound.link (h : Sound o c γ) (hi : i < c.size) (hj : j < c.size)
    (hn : (c.get i).next = none) (hij : Leads o c γ i (γ j)) (hno : ∀ k, (c.get k).next ≠ some j) :
    Sound o (c.link i j) γ := by
  have hgrows : Grows c γ (c.link i j) γ := grows_link hi hj hn
  have hop : ∀ k, (c.link i j).op k = c.op k := fun k => Code.op_link hi hj
  have hget := fun k => Code.get_link c i j k hi hj
  have hnext : ∀ k l, ((c.link i j).get k).next = some l →
      k = i ∧ l = j ∨ k ≠ i ∧ (c.get k).next = some l := by
    intro k l hkl
    rw [hget] at hkl
    by_cases hk : k = i
    · simp only [hk, if_true, Option.some.injEq] at hkl
      exact .inl ⟨hk, hkl.symm⟩
    · simp only [hk, if_false] at hkl
      exact .inr ⟨hk, hkl⟩
  refine
    { size := h.size.trans_le hgrows.size, root := by simpa only [hop] using h.root
      start := by simpa only [hop] using h.start
      links := fun k l hkl => ?_, owned := fun k k' l hk hk' => ?_, jumps := fun k t hk => ?_
      sides := fun k t hk => ?_, inputs := by simpa only [hop] using h.inputs
      roots := by simpa only [hop] using h.roots, throws := fun k hk => ?_ }
  · rcases hnext k l hkl with ⟨rfl, rfl⟩ | ⟨-, hkl⟩
    · exact ⟨hj.trans_le hgrows.size, hij.grow hgrows hi⟩
    · obtain ⟨hl, hleads⟩ := h.links k l hkl
      exact ⟨hl.trans_le hgrows.size, hleads.grow hgrows (Code.lt_of_next hkl)⟩
  · rcases hnext k l hk with ⟨rfl, rfl⟩ | ⟨-, hkl⟩ <;>
      rcases hnext k' _ hk' with ⟨rfl, hl⟩ | ⟨-, hkl'⟩
    · rfl
    · exact absurd hkl' (hno k')
    · exact absurd (hl ▸ hkl) (hno k)
    · exact h.owned k k' l hkl hkl'
  · rw [hop] at hk
    rw [hget]
    exact (h.jumps k t hk).grow hgrows
  · rw [hop] at hk
    rw [hget]
    exact (h.sides k t hk).grow hgrows
  · rw [hop] at hk
    rw [hget]
    exact h.throws k hk

theorem Unused.push (h : Unused (T ++ S) c) (hu : x.op.used.Perm T) : Unused S (c.push x) := by
  have hp : (S ++ (c.collect Op.used ++ x.op.used)).Perm (T ++ S ++ c.collect Op.used) := by
    refine (List.Perm.append_left S (List.Perm.append_left _ hu)).trans ?_
    rw [← List.append_assoc, List.append_assoc T]
    exact List.perm_append_comm
  constructor
  · rw [Code.collect_push]
    exact hp.nodup_iff.mpr h.nodup
  · intro d hd
    rw [Code.collect_push] at hd
    exact (h.bound d (hp.mem_iff.mp hd)).trans (by simp)

theorem Unused.cons (h : Unused (T ++ S) c) (hu : x.op.used.Perm T) :
    Unused (c.size :: S) (c.push x) := by
  have hpush := h.push hu
  refine ⟨List.nodup_cons.mpr ⟨fun hm => ?_, hpush.nodup⟩, fun d hd => ?_⟩
  · rw [Code.collect_push] at hm
    change c.size ∈ S ++ (c.collect Op.used ++ x.op.used) at hm
    have := hu.mem_iff (a := c.size)
    refine Nat.lt_irrefl _ (h.bound c.size ?_)
    simp only [List.mem_append] at hm ⊢
    tauto
  · rcases List.mem_cons.mp hd with rfl | hd
    · simp
    · exact hpush.bound d hd

theorem Unused.link (h : Unused vs c) (hi : i < c.size) (hj : j < c.size) :
    Unused vs (c.link i j) := by
  constructor
  · rw [Code.collect_link hi hj]
    exact h.nodup
  · rw [Code.collect_link hi hj, Code.size_link]
    exact h.bound

theorem Blocks.push {next : Int} (h : Blocks c next) (hx : x.op.asEntry = none) :
    Blocks (c.push x) next := by
  have : Code.collect (c.push x) Op.blockId = c.collect Op.blockId := by
    rw [Code.collect_push, Op.blockId, hx]
    exact List.append_nil _
  constructor <;> rw [this]
  · exact h.nodup
  · exact h.bound

theorem Blocks.cons {next : Int} (h : Blocks c next) {e : Graph.Entry} (hx : x.op = .entry e)
    (he : e.block = next) : Blocks (c.push x) (next + 1) := by
  have hid : Code.collect (c.push x) Op.blockId = c.collect Op.blockId ++ [next] := by
    rw [Code.collect_push, hx, ← he]
    rfl
  constructor <;> rw [hid]
  · refine List.Nodup.append h.nodup (List.nodup_singleton _) fun b hb hb' => ?_
    rw [List.mem_singleton.mp hb'] at hb
    exact Int.lt_irrefl _ (h.bound next hb)
  · intro b hb
    rcases List.mem_append.mp hb with hb | hb
    · have := h.bound b hb
      omega
    · rw [List.mem_singleton.mp hb]
      exact Int.lt_succ next

theorem Regions.congr (h : Regions s γ P) (hs : Beside s s') (hc : s'.code = s.code) :
    Regions s' γ P := by
  have hbreakables := breakables_of_around hs.around
  have hswitches := switches_of_around hs.around
  constructor
  · rw [hc, hs.nextTry]; exact h.blocks
  · rw [hc, hs.nextTry]; exact h.rethrows
  · rw [hc]; exact h.founded
  · rw [hc, hs.nextTry, hs.handlers]; exact h.table
  · rw [hs.tries, hs.nextTry]; exact h.tries
  · rw [hs.caught, hs.nextTry]; exact h.caught
  · rw [hc, hs.nextTry, hbreakables]; exact h.labels
  · rw [hc, hs.nextTry, hswitches]; exact h.cases

theorem Regions.push (h : Regions s γ P) (hb : ∀ i ∈ s.handlers, i < s.code.size)
    (hx : Fits s.nextTry s.code γ x a) :
    Regions { s with code := s.code.push x } (Function.update γ s.code.size a) P := by
  have hgrows : Grows s.code γ (s.code.push x) (Function.update γ s.code.size a) := grows_push
  have hlt : ∀ k, k < (s.code.push x).size → k ≠ s.code.size → k < s.code.size := fun k hk hne => by
    rw [Array.size_push] at hk
    omega
  refine
    { h with
      blocks := fun i e hi ho => ?_, rethrows := fun i y z t ho => ?_
      founded := fun i e t hi ho ht => ?_, table := ?_
      labels := h.labels.imp fun _ _ hb => hb.grow le_rfl hgrows
      cases := h.cases.imp fun _ _ ht k => (ht k).grow le_rfl hgrows }
  · change Code.op (s.code.push x) i = .entry e at ho
    by_cases hic : i = s.code.size
    · rw [hic, Code.op_push_size] at ho
      obtain ⟨h1, h2, -⟩ := hx.entry e ho
      exact ⟨by rw [h1, hic, Function.update_self], h1 ▸ h2⟩
    · rw [op_push_of_ne hic] at ho
      rw [Function.update_of_ne hic]
      exact h.blocks i e (hlt i hi hic) ho
  · change Code.op (s.code.push x) i = _ at ho
    by_cases hic : i = s.code.size
    · rw [hic, Code.op_push_size] at ho
      exact hx.rethrow y z t ho
    · rw [op_push_of_ne hic] at ho
      exact h.rethrows i y z t ho
  · change Code.op (s.code.push x) i = .entry e at ho
    change handled (s.code.push x) i = some t at ht
    obtain ⟨guards, y, z, hkind⟩ := (handled_handler ho).mp ht
    by_cases hic : i = s.code.size
    · rw [hic, Code.op_push_size] at ho
      obtain ⟨h1, -, h3⟩ := hx.entry e ho
      exact h1 ▸ h3 t guards y z hkind
    · rw [op_push_of_ne hic] at ho
      rw [handled_congr (op_push_of_ne hic)] at ht
      exact h.founded i e t (hlt i hi hic) ho ht
  · have hmap : s.handlers.map (handled (s.code.push x)) = s.handlers.map (handled s.code) :=
      List.map_congr_left fun i hi => handled_congr (op_push_of_ne (Nat.ne_of_lt (hb i hi)))
    change List.Perm (s.handlers.map (handled (s.code.push x)) ++ _) _
    rw [hmap]
    exact h.table

theorem Regions.link (h : Regions s γ P) (hi : i < s.code.size) (hj : j < s.code.size)
    (hn : (s.code.get i).next = none) : Regions { s with code := s.code.link i j } γ P := by
  have hgrows : Grows s.code γ (s.code.link i j) γ := grows_link hi hj hn
  have hop : ∀ k, (s.code.link i j).op k = s.code.op k := fun k => Code.op_link hi hj
  have hhandled : handled (s.code.link i j) = handled s.code :=
    funext fun k => handled_congr (hop k)
  exact
    { h with
      blocks := by simpa [hop] using h.blocks, rethrows := by simpa [hop] using h.rethrows
      founded := by simpa [hop, hhandled] using h.founded
      table := by simpa [hhandled] using h.table
      labels := h.labels.imp fun _ _ hb => hb.grow le_rfl hgrows
      cases := h.cases.imp fun _ _ ht k => (ht k).grow le_rfl hgrows }

/-! ## States -/

theorem Inv.congr (h : Inv o s γ P L) (hs : Same s s') : Inv o s' γ P L := by
  constructor
  · rw [hs.code]; exact h.sound
  · rw [hs.code]; exact h.hands
  · rw [hs.code, hs.values]; exact h.unused
  · rw [hs.code]; exact h.sides
  · rw [hs.code, hs.nextBlock]; exact h.blocks
  · rw [hs.code, hs.handlers]; exact h.handlers
  · exact h.regions.congr hs.toBeside hs.code

theorem Inv.perm (h : Inv o s γ P L) (hp : L.Perm L') : Inv o s γ P L' :=
  { h with hands := h.hands.perm hp }

theorem Inv.swap (h : Inv o s γ P (f :: g :: L)) : Inv o s γ P (g :: f :: L) := h.perm (.swap g f L)

theorem Inv.sublist (h : Inv o s γ P L) (hs : L'.Sublist L) : Inv o s γ P L' :=
  { h with hands := h.hands.sublist hs }

theorem Inv.forget (h : Inv o s γ P (f :: L)) : Inv o s γ P L :=
  h.sublist (List.sublist_cons_self f L)

theorem Inv.closed (h : Inv o s γ P (f :: L)) : Inv o s γ P (f.closed :: L) :=
  { h with hands := h.hands.closed }

theorem Inv.entryExit (h : Inv o s γ P (f :: g :: L)) : Inv o s γ P (⟨f.entry, g.exit⟩ :: L) :=
  { h with hands := h.hands.entryExit }

theorem Inv.exitingAt (h : Inv o s γ P (f :: .single i :: L)) : Inv o s γ P (f.exitingAt i :: L) :=
  h.entryExit

theorem Inv.empty (h : Inv o s γ P L) : Inv o s γ P (.empty :: L) :=
  { h with hands := ⟨h.hands.entries, h.hands.exits, by simpa [Fragment.empty] using h.hands.entry,
      by simpa [Fragment.empty] using h.hands.exit⟩ }

theorem Inv.push (h : Inv o s γ P L) (hx : Fits s.nextTry s.code γ x a)
    (hsides : (s.code.collect Op.sides ++ x.op.sides).Nodup) (hc : s'.code = s.code.push x)
    (hv : Unused (values s') s'.code) (hb : Blocks s'.code s'.nextBlock) (hs : Beside s s') :
    Inv o s' (Function.update γ s.code.size a) P (.single s.code.size :: L) where
  sound := hc ▸ h.sound.push hx
  hands := hc ▸ h.hands.push hx.next fun i j hij => (h.sound.links i j hij).1
  unused := hv
  sides := by
    rw [hc, Code.collect_push]
    exact hsides
  blocks := hb
  handlers i hi := by
    obtain ⟨hpos, hlt, hop, hnote⟩ := h.handlers i (hs.handlers ▸ hi)
    rw [hc, Code.op_push_of_lt hlt, Function.update_of_ne (Nat.ne_of_lt hlt)]
    exact ⟨hpos, hlt.trans (by simp), hop, hnote⟩
  regions := (h.regions.push (fun i hi => (h.handlers i hi).2.1) hx).congr { hs with } hc

theorem Inv.append (h : Inv o s γ P (f :: g :: L)) (hf : Spans o s.code γ a f m)
    (hg : Spans o s.code γ m g z) :
    Inv o { s with code := (f.append g s.code).2 } γ P ((f.append g s.code).1 :: L) ∧
      Step s γ { s with code := (f.append g s.code).2 } γ ∧
      Spans o (f.append g s.code).2 γ a (f.append g s.code).1 z := by
  rcases f with ⟨_ | fe, fx⟩
  · have ham := hf.empty rfl
    exact ⟨h.forget, .refl _ _, fun e he => (hg.entry e he).imp_right ham.trans, hg.exit,
      fun he => ham.trans (hg.empty he)⟩
  rcases fx with _ | fx
  · exact ⟨h.swap.forget, .refl _ _, hf.entry, nofun, nofun⟩
  rcases g with ⟨_ | ge, gx⟩
  · exact ⟨h.swap.forget, .refl _ _, hf.weaken (hg.empty rfl)⟩
  · obtain ⟨hfx, hexit⟩ := hf.exit fx rfl
    obtain ⟨hge, hentry⟩ := hg.entry ge rfl
    have hno := (h.hands.entry _ (List.mem_cons_of_mem _ List.mem_cons_self) ge rfl).2
    have hn := (h.hands.exit _ List.mem_cons_self fx rfl).2
    have hgrows : Grows s.code γ (s.code.link fx ge) γ := grows_link hfx hge hn
    refine ⟨?_, ⟨hgrows, le_rfl⟩, Spans.grow (f := ⟨some fe, gx⟩) ⟨hf.entry, hg.exit, nofun⟩ hgrows⟩
    exact
      { sound := h.sound.link hfx hge hn (hexit.until hentry) hno
        hands := h.hands.link
        unused := h.unused.link hfx hge
        sides := by
          change ((s.code.link fx ge).collect Op.sides).Nodup
          rw [Code.collect_link hfx hge]
          exact h.sides
        blocks := by
          change Blocks (s.code.link fx ge) s.nextBlock
          constructor <;> rw [Code.collect_link hfx hge]
          · exact h.blocks.nodup
          · exact h.blocks.bound
        handlers := fun i hi => by
          change 0 < i ∧ i < (s.code.link fx ge).size ∧
            ((s.code.link fx ge).op i).isHandler = true ∧ _
          rw [Code.size_link, Code.op_link hfx hge]
          exact h.handlers i hi
        regions := h.regions.link hfx hge hn }

end Lemmas

end Assembly

end Flowgraph.Lowering
