import Flowgraph.Proofs.Scoping.Storage

/-! # Captures

A variable is captured by the references to it that stand in a function inside its own, and these
references force frames in the functions in between.
-/

namespace Flowgraph.Scoping

variable {a b : Analysis} {c c' : Core} {p q : Spot} {w : List Move} {mv : Move} {v f i j : Nat}

/-! ## Places in a word -/

/-- The open functions and how many have begun. -/
def Move.turn : List Nat × Nat → Move → List Nat × Nat
  | (fs, n), begin .. | (fs, n), nest .. => (n :: fs, n + 1)
  | (fs, n), finish => (fs.tail, n)
  | x, _ => x

/-- The functions around place `j` of a word, innermost first. They are numbered in the order in which
they begin. -/
def functionsAt (w : List Move) (j : Nat) : List Nat := ((w.take j).foldl Move.turn ([], 0)).1

/-- The move is a reference to the variable. -/
def Move.refersTo (a : Analysis) (v : Nat) : Move → Prop
  | mention _ ref => (a.var v).decl = some ref.id
  | this _ => a.member.this = some v
  | _ => False

def Move.declares (a : Analysis) (v : Nat) : Move → Prop
  | declare d | parameter d => (a.var v).decl = some d.id
  | receiver => a.member.this = some v
  | _ => False

/-- Place `j` of the word refers to the variable. -/
def RefersAt (w : List Move) (a : Analysis) (v j : Nat) : Prop :=
  ∃ mv, w[j]? = some mv ∧ mv.refersTo a v

def DeclaresAt (w : List Move) (a : Analysis) (v j : Nat) : Prop :=
  ∃ mv, w[j]? = some mv ∧ mv.declares a v

theorem exists_getElem?_append {P : Move → Prop} (w : List Move) (mv : Move) (j : Nat) :
    (∃ x, (w ++ [mv])[j]? = some x ∧ P x) ↔ (∃ x, w[j]? = some x ∧ P x) ∨ (j = w.length ∧ P mv) := by
  rcases Nat.lt_trichotomy j w.length with hj | rfl | hj
  · simp [List.getElem?_append_left hj, Nat.ne_of_lt hj]
  · simp
  · have hw : w[j]? = none := List.getElem?_eq_none (Nat.le_of_lt hj)
    have hw' : (w ++ [mv])[j]? = none :=
      List.getElem?_eq_none (by rw [List.length_append]; exact hj)
    simp [hw, hw', Nat.ne_of_gt hj]

theorem refersAt_append (w : List Move) (mv : Move) (a : Analysis) (v j : Nat) :
    RefersAt (w ++ [mv]) a v j ↔ RefersAt w a v j ∨ (j = w.length ∧ mv.refersTo a v) :=
  exists_getElem?_append w mv j

theorem declaresAt_append (w : List Move) (mv : Move) (a : Analysis) (v j : Nat) :
    DeclaresAt (w ++ [mv]) a v j ↔ DeclaresAt w a v j ∨ (j = w.length ∧ mv.declares a v) :=
  exists_getElem?_append w mv j

theorem RefersAt.lt (h : RefersAt w a v j) : j < w.length := by
  obtain ⟨_, hmv, _⟩ := h
  exact (List.getElem?_eq_some_iff.mp hmv).1

theorem functionsAt_append (w : List Move) (mv : Move) (hj : j ≤ w.length) :
    functionsAt (w ++ [mv]) j = functionsAt w j := by
  rw [functionsAt, List.take_append_of_le_length hj, functionsAt]

/-! ## Open functions -/

theorem turn_next (h : p.next mv = some q) :
    Move.turn (p.around.map (·.function), p.functions) mv =
      (q.around.map (·.function), q.functions) := by
  cases mv <;> simp only [Spot.next] at h <;> (try split at h) <;> cases h <;>
    simp_all [Move.turn, Spot.push]

/-- Everything that is open is inside the first function. -/
def InFirst (p : Spot) : Prop := ∀ f, (p.around.map (·.function)).getLast? = some f → f = 0

theorem InFirst.next (h : InFirst p) (hq : p.next mv = some q) : InFirst q := by
  cases mv with
  | begin =>
    obtain ⟨_ | n, scopes, hasThis, _ | ⟨o, rest⟩⟩ := p <;> cases hq
    exact fun f hf => (Option.some.inj hf).symm
  | nest =>
    obtain ⟨functions, scopes, hasThis, _ | ⟨o, rest⟩⟩ := p <;> cases hq
    exact fun f hf => h f (by simpa [Spot.push, List.getLast?_cons_cons] using hf)
  | finish =>
    obtain ⟨functions, scopes, hasThis, _ | ⟨⟨f, i, _ | _⟩, rest⟩⟩ := p <;> cases hq
    intro g hg
    refine h g ?_
    rw [List.map_cons, List.getLast?_cons, hg]
    rfl
  | enter =>
    obtain ⟨functions, scopes, hasThis, _ | ⟨o, rest⟩⟩ := p <;> cases hq
    exact h
  | exit =>
    obtain ⟨functions, scopes, hasThis, _ | ⟨⟨f, i, _ | _⟩, rest⟩⟩ := p <;> cases hq
    exact h
  | receiver =>
    obtain ⟨functions, scopes, _ | _, _ | ⟨⟨_ | g, e, inner⟩, _ | _⟩⟩ := p <;> cases hq
    exact h
  | _ =>
    obtain ⟨rfl, _⟩ := Spot.next_plain rfl hq
    exact h

/-- Inner functions have larger numbers. -/
def Ordered (x : List Nat × Nat) : Prop := x.1.Pairwise (· > ·) ∧ ∀ f ∈ x.1, f < x.2

theorem Ordered.turn {x : List Nat × Nat} (h : Ordered x) (mv : Move) :
    Ordered (mv.turn x) ∧ x.2 ≤ (mv.turn x).2 := by
  obtain ⟨hsorted, hlt⟩ := h
  have hpush : Ordered (x.2 :: x.1, x.2 + 1) :=
    ⟨List.pairwise_cons.mpr ⟨hlt, hsorted⟩, by
      intro f hf
      rcases List.mem_cons.mp hf with rfl | hf
      · exact Nat.lt_succ_self _
      · exact Nat.lt_succ_of_lt (hlt f hf)⟩
  cases mv with
  | begin => exact ⟨hpush, Nat.le_succ _⟩
  | nest => exact ⟨hpush, Nat.le_succ _⟩
  | finish => exact ⟨⟨hsorted.tail, fun f hf => hlt f (List.mem_of_mem_tail hf)⟩, Nat.le_refl _⟩
  | _ => exact ⟨⟨hsorted, hlt⟩, Nat.le_refl _⟩

theorem Ordered.foldl {x : List Nat × Nat} (h : Ordered x) (w : List Move) :
    Ordered (w.foldl Move.turn x) ∧ x.2 ≤ (w.foldl Move.turn x).2 := by
  induction w generalizing x with
  | nil => exact ⟨h, Nat.le_refl _⟩
  | cons mv w ih =>
    obtain ⟨hturn, hle⟩ := h.turn mv
    obtain ⟨hrest, hle'⟩ := ih hturn
    exact ⟨hrest, Nat.le_trans hle hle'⟩

theorem ordered_start : Ordered ([], 0) := ⟨.nil, by simp⟩

theorem functionsAt_sorted (w : List Move) (j : Nat) : (functionsAt w j).Pairwise (· > ·) :=
  (ordered_start.foldl (w.take j)).1.1

theorem lt_of_mem_functionsAt (hf : f ∈ functionsAt w j) : f < (w.foldl Move.turn ([], 0)).2 := by
  have hfront := ordered_start.foldl (w.take j)
  have hrest := hfront.1.foldl (w.drop j)
  rw [← List.foldl_append, List.take_append_drop] at hrest
  exact Nat.lt_of_lt_of_le (hfront.1.2 f hf) hrest.2

/-! ## References in the machine -/

theorem enclosers_eq (stop : Nat) : ∀ {around : List Open} {limit : Nat}, Held a around →
    around.length ≤ limit → a.enclosers stop limit (around.head?.map (·.function)) =
      (around.map (·.function)).takeWhile (· ≠ stop)
  | [], 0, _, _ | [], _ + 1, _, _ => rfl
  | o :: rest, limit + 1, ⟨_, _, hparent, _, hrest⟩, hlimit => by
    have ih := enclosers_eq stop hrest (Nat.le_of_succ_le_succ hlimit)
    simp only [List.head?_cons, Option.map_some, Analysis.enclosers, hparent, List.map_cons,
      List.takeWhile_cons, ih]
    by_cases h : o.function = stop <;> simp [h]

theorem length_le_of_ordered : ∀ {fs : List Nat} {n : Nat}, Ordered (fs, n) → fs.length ≤ n
  | [], _, _ => Nat.zero_le _
  | f :: fs, n, ⟨hsorted, hlt⟩ => by
    obtain ⟨hf, hfs⟩ := List.pairwise_cons.mp hsorted
    have : fs.length ≤ f := length_le_of_ordered ⟨hfs, hf⟩
    have := hlt f List.mem_cons_self
    simp only [List.length_cons]
    omega

theorem mem_of_lookupFrom {d : Nat} {outer : Option Nat} :
    ∀ {limit : Nat} {l : List Nat}, Nested a f outer l → a.lookupFrom d limit (l.head?.or outer) = some v →
      (∃ i ∈ l, v ∈ (a.scope i).vars) ∨ ∃ limit', a.lookupFrom d limit' outer = some v
  | limit, [], _, h => .inr ⟨limit, by simpa using h⟩
  | 0, _ :: _, _, h => by cases h
  | limit + 1, i :: l, ⟨_, _, hparent, hl⟩, h => by
    simp only [List.head?_cons, Option.some_or, Analysis.lookupFrom] at h
    split at h
    · next x hx =>
      cases h
      exact .inl ⟨i, List.mem_cons_self, List.mem_of_find?_eq_some hx⟩
    · rw [hparent] at h
      rcases mem_of_lookupFrom hl h with ⟨j, hj, hv⟩ | hv
      · exact .inl ⟨j, List.mem_cons_of_mem i hj, hv⟩
      · exact .inr hv

theorem Nested.function_eq {outer : Option Nat} : ∀ {l : List Nat}, Nested a f outer l →
    ∀ i ∈ l, i < a.scopes.size ∧ (a.scope i).function = f
  | i :: l, ⟨hlt, hf, _, hl⟩, j, hj => by
    rcases List.mem_cons.mp hj with rfl | hj
    · exact ⟨hlt, hf⟩
    · exact hl.function_eq j hj

theorem head?_scopes_or (o : Open) (rest : List Open) :
    (chain (o :: rest)).head? = o.scopes.head?.or (chain rest).head? := by
  rcases o with ⟨f, e, _ | ⟨i, l⟩⟩ <;> rfl

theorem function_mem_of_lookup (ha : Shape a) {d : Nat} : ∀ {around : List Open} {limit : Nat},
    Held a around → a.lookupFrom d limit (chain around).head? = some v →
      (a.var v).function ∈ around.map (·.function)
  | [], 0, _, h | [], _ + 1, _, h => by cases h
  | o :: rest, limit, ⟨_, _, _, hnested, hrest⟩, h => by
    rw [head?_scopes_or] at h
    rcases mem_of_lookupFrom hnested h with ⟨i, hi, hv⟩ | ⟨limit', hv⟩
    · rw [(ha.listed i v hv).2.2, (hnested.function_eq i hi).2]
      exact List.mem_cons_self
    · exact List.mem_cons_of_mem _ (function_mem_of_lookup ha hrest hv)

/-! ## What a run marks -/

def Move.isReference : Move → Bool
  | mention .. | this .. => true
  | _ => false

/-- The scopes of the functions from place `j` outwards, up to that of the variable. -/
def forcedAt (w : List Move) (a : Analysis) (v j : Nat) : List Nat :=
  ((functionsAt w j).takeWhile (· ≠ (a.var v).function)).map fun f => (a.layout f).scope

/-- The functions of the analysis are those that the word begins, in this order. -/
def Numbered (w : List Move) (a : Analysis) : Prop :=
  (w.filterMap Move.opens).length = a.layouts.size ∧
    ∀ f < a.layouts.size, (w.filterMap Move.opens)[f]? = some (a.layout f).node

/-- The marks of an analysis are those of the references in the word that has been read. -/
structure Marked (w : List Move) (c : Core) (p : Spot) : Prop where
  turn : w.foldl Move.turn ([], 0) = (p.around.map (·.function), p.functions)
  first : InFirst p
  known : ∀ mv ∈ w, mv.isReference = true → ∃ v, mv.refersTo c.analysis v
  inside : ∀ v j, RefersAt w c.analysis v j → (c.analysis.var v).function ∈ functionsAt w j
  captured : ∀ v, (c.analysis.var v).isCaptured = true ↔
    ∃ j, RefersAt w c.analysis v j ∧ (c.analysis.var v).function ∈ (functionsAt w j).tail
  forced : ∀ i, (c.analysis.scope i).isForced = true ↔
    ∃ v j, RefersAt w c.analysis v j ∧ i ∈ forcedAt w c.analysis v j
  declared : ∀ v, (c.analysis.var v).decl.isSome = true ∨ c.analysis.member.this = some v →
    ∃ j ≤ w.length, DeclaresAt w c.analysis v j ∧
      (functionsAt w j).head? = some (c.analysis.var v).function
  nodes : Numbered w c.analysis

theorem lt_of_refersTo (ha : Shape a) (h : mv.refersTo a v) : v < a.vars.size := by
  cases mv with
  | mention _ ref =>
    apply Classical.byContradiction
    intro hv
    rw [Move.refersTo, Analysis.var_of_le (Nat.le_of_not_lt hv)] at h
    cases h
  | this => exact (ha.listed _ v (ha.this_listed v h).1).1
  | _ => exact h.elim

theorem lt_of_declares (ha : Shape a)
    (h : (a.var v).decl.isSome = true ∨ a.member.this = some v) : v < a.vars.size := by
  rcases h with h | h
  · apply Classical.byContradiction
    intro hv
    rw [Analysis.var_of_le (Nat.le_of_not_lt hv)] at h
    cases h
  · exact (ha.listed _ v (ha.this_listed v h).1).1

theorem Marked.advance (h : Marked w c p) (hc : Agrees c p) (hq : p.next mv = some q)
    (hx : Extends c.analysis c'.analysis)
    (hrefs : ∀ x ∈ w, ∀ v, x.refersTo c'.analysis v ↔ x.refersTo c.analysis v)
    (hdecls : ∀ x ∈ w, ∀ v, x.declares c.analysis v → x.declares c'.analysis v)
    (hknown : mv.isReference = true → ∃ v, mv.refersTo c'.analysis v)
    (hinside : ∀ v, mv.refersTo c'.analysis v →
      (c'.analysis.var v).function ∈ p.around.map (·.function))
    (hcaptured : ∀ v, (c'.analysis.var v).isCaptured = true ↔
      (c.analysis.var v).isCaptured = true ∨ (mv.refersTo c'.analysis v ∧
        (c'.analysis.var v).function ∈ (p.around.map (·.function)).tail))
    (hforced : ∀ i, (c'.analysis.scope i).isForced = true ↔
      (c.analysis.scope i).isForced = true ∨ ∃ v, mv.refersTo c'.analysis v ∧
        i ∈ ((p.around.map (·.function)).takeWhile (· ≠ (c'.analysis.var v).function)).map
          fun f => (c'.analysis.layout f).scope)
    (hdeclared : ∀ v, (c'.analysis.var v).decl.isSome = true ∨ c'.analysis.member.this = some v →
      ((c.analysis.var v).decl.isSome = true ∨ c.analysis.member.this = some v) ∨
        (mv.declares c'.analysis v ∧
          (p.around.map (·.function)).head? = some (c'.analysis.var v).function))
    (hnodes : Numbered (w ++ [mv]) c'.analysis) :
    Marked (w ++ [mv]) c' q := by
  have hend : functionsAt (w ++ [mv]) w.length = p.around.map (·.function) := by
    rw [functionsAt_append w mv (Nat.le_refl _), functionsAt, List.take_length, h.turn]
  have hold (v j : Nat) : RefersAt w c'.analysis v j ↔ RefersAt w c.analysis v j := by
    constructor
    · rintro ⟨x, hx, hv⟩
      exact ⟨x, hx, (hrefs x (List.mem_of_getElem? hx) v).mp hv⟩
    · rintro ⟨x, hx, hv⟩
      exact ⟨x, hx, (hrefs x (List.mem_of_getElem? hx) v).mpr hv⟩
  have hfunction {v j : Nat} (hv : RefersAt w c.analysis v j) :
      (c'.analysis.var v).function = (c.analysis.var v).function := by
    obtain ⟨x, _, hv⟩ := hv
    exact (hx.var v (lt_of_refersTo hc.shape hv)).2.2
  have hat {v j : Nat} (hv : RefersAt w c.analysis v j) :
      functionsAt (w ++ [mv]) j = functionsAt w j := functionsAt_append w mv (Nat.le_of_lt hv.lt)
  have hforcedAt {v j : Nat} (hv : RefersAt w c.analysis v j) :
      forcedAt (w ++ [mv]) c'.analysis v j = forcedAt w c.analysis v j := by
    rw [forcedAt, hat hv, hfunction hv, forcedAt]
    refine List.map_congr_left fun f hf => (hx.layout f ?_).2.1
    have hlt := lt_of_mem_functionsAt ((List.takeWhile_sublist _).mem hf)
    rwa [h.turn, ← hc.functions] at hlt
  constructor
  case turn => rw [List.foldl_append, h.turn, List.foldl_cons, List.foldl_nil, turn_next hq]
  case first => exact h.first.next hq
  case known =>
    intro x hx hr
    rcases List.mem_append.mp hx with hx | hx
    · obtain ⟨v, hv⟩ := h.known x hx hr
      exact ⟨v, (hrefs x hx v).mpr hv⟩
    · cases List.mem_singleton.mp hx
      exact hknown hr
  case inside =>
    intro v j hv
    rcases (refersAt_append ..).mp hv with hv | ⟨rfl, hnew⟩
    · have hv := (hold v j).mp hv
      rw [hfunction hv, hat hv]
      exact h.inside v j hv
    · rw [hend]
      exact hinside v hnew
  case captured =>
    intro v
    rw [hcaptured, h.captured]
    constructor
    · rintro (⟨j, hv, hmem⟩ | ⟨hv, hmem⟩)
      · refine ⟨j, (refersAt_append ..).mpr (.inl ((hold v j).mpr hv)), ?_⟩
        rwa [hfunction hv, hat hv]
      · exact ⟨w.length, (refersAt_append ..).mpr (.inr ⟨rfl, hv⟩), by rwa [hend]⟩
    · rintro ⟨j, hv, hmem⟩
      rcases (refersAt_append ..).mp hv with hv | ⟨rfl, hnew⟩
      · have hv := (hold v j).mp hv
        rw [hfunction hv, hat hv] at hmem
        exact .inl ⟨j, hv, hmem⟩
      · rw [hend] at hmem
        exact .inr ⟨hnew, hmem⟩
  case forced =>
    intro i
    rw [hforced, h.forced]
    constructor
    · rintro (⟨v, j, hv, hmem⟩ | ⟨v, hv, hmem⟩)
      · refine ⟨v, j, (refersAt_append ..).mpr (.inl ((hold v j).mpr hv)), ?_⟩
        rwa [hforcedAt hv]
      · refine ⟨v, w.length, (refersAt_append ..).mpr (.inr ⟨rfl, hv⟩), ?_⟩
        rwa [forcedAt, hend]
    · rintro ⟨v, j, hv, hmem⟩
      rcases (refersAt_append ..).mp hv with hv | ⟨rfl, hnew⟩
      · have hv := (hold v j).mp hv
        rw [hforcedAt hv] at hmem
        exact .inl ⟨v, j, hv, hmem⟩
      · rw [forcedAt, hend] at hmem
        exact .inr ⟨v, hnew, hmem⟩
  case declared =>
    intro v hv
    rcases hdeclared v hv with hv | ⟨hv, hhead⟩
    · obtain ⟨j, hj, ⟨x, hxj, hdecl⟩, hhead⟩ := h.declared v hv
      refine ⟨j, Nat.le_trans hj (by simp), (declaresAt_append ..).mpr (.inl ⟨x, hxj, ?_⟩), ?_⟩
      · exact hdecls x (List.mem_of_getElem? hxj) v hdecl
      · rw [functionsAt_append w mv hj, (hx.var v (lt_of_declares hc.shape hv)).2.2]
        exact hhead
    · exact ⟨w.length, by simp, (declaresAt_append ..).mpr (.inr ⟨rfl, hv⟩), by rwa [hend]⟩
  case nodes => exact hnodes

/-! ## Moves that mark nothing -/

/-- Names mean the same and nothing is marked. -/
structure Keeps (a b : Analysis) : Prop where
  grows : Extends a b
  decl : ∀ v, (b.var v).decl = (a.var v).decl
  this : b.member.this = a.member.this
  captured : ∀ v, (b.var v).isCaptured = (a.var v).isCaptured
  forced : ∀ i, (b.scope i).isForced = (a.scope i).isForced

@[simp] theorem isForced_default : (default : Scope).isForced = false := rfl

theorem Keeps.trans {a b d : Analysis} (hab : Keeps a b) (hbd : Keeps b d) : Keeps a d where
  grows := hab.grows.trans hbd.grows
  decl v := (hbd.decl v).trans (hab.decl v)
  this := hbd.this.trans hab.this
  captured v := (hbd.captured v).trans (hab.captured v)
  forced i := (hbd.forced i).trans (hab.forced i)

theorem keeps_addLayout (a : Analysis) {l : Layout} (hl : l.this = none) : Keeps a (a.addLayout l) where
  grows := extends_addLayout a l
  decl _ := rfl
  this := this_addLayout hl
  captured _ := rfl
  forced _ := rfl

theorem keeps_addScope (a : Analysis) {sc : Scope} (hs : sc.isForced = false) :
    Keeps a (a.addScope sc) where
  grows := extends_addScope a sc
  decl _ := rfl
  this := rfl
  captured _ := rfl
  forced i := by
    rw [a.scope_addScope]
    split
    · next hi => rw [hs, hi, Analysis.scope_of_le (Nat.le_refl _), isForced_default]
    · rfl

theorem keeps_addVariable (a : Analysis) (name : String) (scope f : Nat) :
    Keeps a (a.addVariable name none scope f) where
  grows := extends_addVariable ..
  decl v := by
    rw [a.var_addVariable]
    split
    · next hv => rw [hv, Analysis.var_of_le (Nat.le_refl _), decl_default]
    · rfl
  this := a.this_addVariable name none scope f a.firstLayout
  captured v := by
    rw [a.var_addVariable]
    split
    · next hv => rw [hv, Analysis.var_of_le (Nat.le_refl _), isCaptured_default]
    · rfl
  forced _ := rfl

theorem keeps_closures (a : Analysis) (closures : List Closure) : Keeps a { a with closures } where
  grows := (alike_closures ..).extends rfl
  decl _ := rfl
  this := rfl
  captured _ := rfl
  forced _ := rfl

theorem keeps_refl (a : Analysis) : Keeps a a := keeps_closures a a.closures

theorem Assists.keepsMarks (h : Assists f a b) : Keeps a b := by
  induction h with
  | refl => exact keeps_refl a
  | helper _ ih => exact ih.trans (keeps_addVariable ..)
  | @note b change _ hc ih =>
    refine ih.trans ⟨?_, fun _ => rfl, ?_, fun _ => rfl, fun _ => rfl⟩
    · exact (Assists.refl.note hc).extends
    · exact (Assists.refl.note hc).member_this

theorem Keeps.refersTo_iff (h : Keeps a b) (mv : Move) (v : Nat) :
    mv.refersTo b v ↔ mv.refersTo a v := by
  cases mv <;> simp only [Move.refersTo, h.decl, h.this]

theorem Keeps.declares_iff (h : Keeps a b) (mv : Move) (v : Nat) :
    mv.declares b v ↔ mv.declares a v := by
  cases mv <;> simp only [Move.declares, h.decl, h.this]

theorem Marked.quiet (h : Marked w c p) (hc : Agrees c p) (hq : p.next mv = some q)
    (hk : Keeps c.analysis c'.analysis) (hmv : ∀ v, ¬ mv.refersTo c'.analysis v)
    (hr : mv.isReference = false)
    (hnodes : Numbered (w ++ [mv]) c'.analysis) :
    Marked (w ++ [mv]) c' q := by
  refine h.advance hc hq hk.grows ?_ ?_ ?_ ?_ ?_ ?_ ?_ hnodes
  · exact fun x _ v => hk.refersTo_iff x v
  · exact fun x _ v => (hk.declares_iff x v).mpr
  · simp [hr]
  · exact fun v hv => absurd hv (hmv v)
  · exact fun v => by simp [hk.captured, hmv]
  · exact fun i => by simp [hk.forced, hmv]
  · intro v hv
    rw [hk.decl, hk.this] at hv
    exact .inl hv

theorem Numbered.same (h : Numbered w a) (hmv : mv.opens = none) (hx : Extends a b)
    (hsize : b.layouts.size = a.layouts.size) : Numbered (w ++ [mv]) b := by
  have hw : (w ++ [mv]).filterMap Move.opens = w.filterMap Move.opens := by
    rw [List.filterMap_append, List.filterMap_cons_none hmv, List.filterMap_nil, List.append_nil]
  refine ⟨by rw [hw, h.1, hsize], fun f hf => ?_⟩
  rw [hsize] at hf
  rw [hw, h.2 f hf, (hx.layout f hf).1]

theorem Numbered.push (h : Numbered w a) {l : Layout} (hmv : mv.opens = some l.node) :
    Numbered (w ++ [mv]) (a.addLayout l) := by
  have hw : (w ++ [mv]).filterMap Move.opens = w.filterMap Move.opens ++ [l.node] := by
    rw [List.filterMap_append, List.filterMap_cons_some hmv, List.filterMap_nil]
  refine ⟨by rw [hw, List.length_append, h.1, a.size_layouts_addLayout]; rfl, fun f hf => ?_⟩
  rw [a.size_layouts_addLayout] at hf
  rw [hw, a.layout_addLayout]
  rcases Nat.lt_or_eq_of_le (Nat.le_of_lt_succ hf) with hf | rfl
  · rw [List.getElem?_append_left (h.1 ▸ hf), if_neg (Nat.ne_of_lt hf), h.2 f hf]
  · rw [if_pos rfl, ← h.1, List.getElem?_concat_length]

theorem Numbered.mono (h : Numbered w a) (hx : Extends a b)
    (hsize : b.layouts.size = a.layouts.size) : Numbered w b := by
  refine ⟨by rw [h.1, hsize], fun f hf => ?_⟩
  rw [hsize] at hf
  rw [h.2 f hf, (hx.layout f hf).1]

/-! ## References -/

theorem head?_ne_iff_mem_tail {fs : List Nat} {x : Nat} (hs : fs.Pairwise (· > ·)) (hx : x ∈ fs) :
    fs.head? ≠ some x ↔ x ∈ fs.tail := by
  cases fs with
  | nil => cases hx
  | cons f fs =>
    obtain ⟨hf, _⟩ := List.pairwise_cons.mp hs
    constructor
    · intro hne
      exact (List.mem_cons.mp hx).resolve_left fun h => hne (h ▸ rfl)
    · rintro hmem ⟨⟩
      exact Nat.lt_irrefl _ (hf _ hmem)

theorem head?_ne_of_mem_takeWhile {fs : List Nat} {x y : Nat} (h : y ∈ fs.takeWhile (· ≠ x)) :
    fs.head? ≠ some x := by
  cases fs with
  | nil => cases h
  | cons f fs =>
    rintro ⟨⟩
    simp at h

/-- A reference marks its variable if it stands in another function, and forces the frames in between. -/
theorem Marked.refer (h : Marked w c p) (hc : Agrees c p) (hq : p.next mv = some q)
    (hv : ∀ x, mv.refersTo c.analysis x ↔ x = v) (hopens : mv.opens = none)
    (hin : (c.analysis.var v).function ∈ p.around.map (·.function)) :
    Marked (w ++ [mv]) { c with analysis := c.analysis.capture c.layout v } q := by
  obtain ⟨vars, scopes, heq, hvars, hscopes, hvar, hscope⟩ := c.analysis.capture_eq c.layout v
  have halike := alike_capture c.analysis c.layout v
  have hx := halike.extends (layouts_capture c.analysis c.layout v)
  have hlt : v < c.analysis.vars.size := lt_of_refersTo hc.shape ((hv v).mpr rfl)
  have hlayout : (c.analysis.capture c.layout v).layout = c.analysis.layout := by rw [heq]; rfl
  have hmember : (c.analysis.capture c.layout v).member = c.analysis.member := by rw [heq]; rfl
  have hrefs (x : Move) (u : Nat) :
      x.refersTo (c.analysis.capture c.layout v) u ↔ x.refersTo c.analysis u := by
    cases x <;> simp only [Move.refersTo, (halike.var u).1, hmember]
  have hdecls (x : Move) (u : Nat) :
      x.declares (c.analysis.capture c.layout v) u ↔ x.declares c.analysis u := by
    cases x <;> simp only [Move.declares, (halike.var u).1, hmember]
  -- The reference is foreign if the function of the variable is further out than the innermost one.
  have hsorted : (p.around.map (·.function)).Pairwise (· > ·) := by
    have := functionsAt_sorted w w.length
    rwa [functionsAt, List.take_length, h.turn] at this
  have hhead : c.layout = (p.around.map (·.function)).head? := by rw [hc.layout, List.head?_map]
  have hforeign : c.analysis.IsForeign c.layout v ↔
      (c.analysis.var v).function ∈ (p.around.map (·.function)).tail := by
    rw [Analysis.IsForeign, hhead]
    exact head?_ne_iff_mem_tail hsorted hin
  have hlimit : p.around.length ≤ c.analysis.layouts.size := by
    have := length_le_of_ordered (h.turn ▸ (ordered_start.foldl w).1)
    rwa [List.length_map, ← hc.functions] at this
  have hbetween : c.analysis.between c.layout v =
      ((p.around.map (·.function)).takeWhile (· ≠ (c.analysis.var v).function)).map
        fun f => (c.analysis.layout f).scope := by
    rw [Analysis.between, hc.layout, enclosers_eq _ hc.held hlimit]
  have hcaptured (u : Nat) : ((c.analysis.capture c.layout v).var u).isCaptured = true ↔
      (c.analysis.var u).isCaptured = true ∨ (c.analysis.IsForeign c.layout v ∧ u = v) := by
    rw [heq, show Analysis.var { c.analysis with vars, scopes } u = _ from hvar u]
    simp only [Bool.or_eq_true, decide_eq_true_eq]
    refine or_congr_right ⟨fun hu => ⟨hu.1, hu.2.1⟩, ?_⟩
    rintro ⟨hforeign, rfl⟩
    exact ⟨hforeign, rfl, hlt⟩
  have hforced (i : Nat) : ((c.analysis.capture c.layout v).scope i).isForced = true ↔
      (c.analysis.scope i).isForced = true ∨ i ∈ c.analysis.between c.layout v := by
    rw [heq, show Analysis.scope { c.analysis with vars, scopes } i = _ from hscope i]
    simp only [Bool.or_eq_true, decide_eq_true_eq]
    refine or_congr_right ⟨fun hi => hi.2.1, fun hi => ⟨?_, hi, ?_⟩⟩
    all_goals
      rw [hbetween] at hi
      obtain ⟨f, hf, rfl⟩ := List.mem_map.mp hi
    · rw [Analysis.IsForeign, hhead]
      exact head?_ne_of_mem_takeWhile hf
    · have hlt := lt_of_mem_functionsAt (w := w) (j := w.length) (f := f) (by
        rw [functionsAt, List.take_length, h.turn]
        exact (List.takeWhile_sublist _).mem hf)
      rw [h.turn, ← hc.functions] at hlt
      exact (hc.shape.entry f hlt).1
  refine h.advance hc hq hx (fun x _ u => hrefs x u) (fun x _ u => (hdecls x u).mpr) ?_ ?_ ?_ ?_ ?_
    (h.nodes.same hopens hx halike.sizes.2.2)
  · exact fun _ => ⟨v, (hrefs mv v).mpr ((hv v).mpr rfl)⟩
  · intro u hu
    cases (hv u).mp ((hrefs mv u).mp hu)
    rw [(halike.var v).2.2.1]
    exact hin
  · intro u
    rw [hcaptured, hforeign, hrefs, hv, (halike.var u).2.2.1]
    refine or_congr_right ⟨?_, ?_⟩
    · rintro ⟨hmem, rfl⟩
      exact ⟨rfl, hmem⟩
    · rintro ⟨rfl, hmem⟩
      exact ⟨hmem, rfl⟩
  · intro i
    rw [hforced, hbetween]
    refine or_congr_right ⟨fun hi => ⟨v, (hrefs mv v).mpr ((hv v).mpr rfl), ?_⟩, ?_⟩
    · rw [(halike.var v).2.2.1, hlayout]
      exact hi
    · rintro ⟨u, hu, hi⟩
      cases (hv u).mp ((hrefs mv u).mp hu)
      rwa [(halike.var v).2.2.1, hlayout] at hi
  · intro u hu
    rw [(halike.var u).1, hmember] at hu
    exact .inl hu

/-! ## Declarations -/

theorem captured_addListed (a : Analysis) (name : String) (decl : Option Nat) (i f v : Nat) :
    ((a.addListed name decl i f).var v).isCaptured = (a.var v).isCaptured := by
  rw [a.var_addListed]
  split
  · next hv => rw [hv, Analysis.var_of_le (Nat.le_refl _), isCaptured_default]
  · rfl

theorem forced_addListed (a : Analysis) (name : String) (decl : Option Nat) (i f j : Nat) :
    ((a.addListed name decl i f).scope j).isForced = (a.scope j).isForced := by
  rw [a.scope_addListed]
  split <;> rfl

theorem Marked.declare (h : Marked w c p) (hc : Agrees c p) (hq : p.next mv = some q)
    {d : Tree.Declaration} (hmv : mv = .declare d ∨ mv = .parameter d) (hf : c.layout = some f)
    (hnew : ∀ v, (c.analysis.var v).decl ≠ some d.id)
    (hb : Assists f (c.analysis.addListed d.name (some d.id) i f) b) :
    Marked (w ++ [mv]) { c with analysis := b } q := by
  have hk := hb.keepsMarks
  have hx : Extends c.analysis b := (extends_addListed ..).trans hk.grows
  have hvar := c.analysis.var_addListed d.name (some d.id) i f
  have hthis : b.member.this = c.analysis.member.this :=
    hk.this.trans (c.analysis.this_addListed d.name (some d.id) i f c.analysis.firstLayout)
  have hdecl (v : Nat) : (b.var v).decl =
      if v = c.analysis.vars.size then some d.id else (c.analysis.var v).decl := by
    rw [hk.decl, hvar]
    split <;> rfl
  have hnone : (c.analysis.var c.analysis.vars.size).decl = none := by
    rw [Analysis.var_of_le (Nat.le_refl _), decl_default]
  have hnot (v : Nat) : ¬ mv.refersTo b v := by
    obtain rfl | rfl := hmv <;> exact id
  refine h.advance hc hq hx ?_ ?_ ?_ ?_ ?_ ?_ ?_ (h.nodes.same ?_ hx ?_)
  · intro x hxw v
    cases x with
    | mention place ref =>
      obtain ⟨u, hu⟩ := h.known _ hxw rfl
      rw [Move.refersTo, Move.refersTo, hdecl]
      split
      · next hv =>
        rw [hv, hnone]
        exact ⟨fun heq => absurd (hu.trans heq.symm) (hnew u), nofun⟩
      · rfl
    | this => rw [Move.refersTo, Move.refersTo, hthis]
    | _ => rfl
  · intro x _ v hv
    have hold {e : Tree.Declaration} (he : (c.analysis.var v).decl = some e.id) :
        (b.var v).decl = some e.id := by
      rw [hdecl, if_neg, he]
      rintro rfl
      cases hnone.symm.trans he
    cases x with
    | declare e => exact hold hv
    | parameter e => exact hold hv
    | receiver => exact hthis.trans hv
    | _ => exact hv
  · obtain rfl | rfl := hmv <;> exact nofun
  · exact fun v hv => absurd hv (hnot v)
  · exact fun v => by simp [hk.captured, captured_addListed, hnot]
  · exact fun j => by simp [hk.forced, forced_addListed, hnot]
  · intro v hv
    rw [hdecl, hthis] at hv
    by_cases hvnew : v = c.analysis.vars.size
    · refine .inr ⟨?_, ?_⟩
      · have : (b.var v).decl = some d.id := by rw [hdecl, if_pos hvnew]
        obtain rfl | rfl := hmv <;> exact this
      · have hlt : v < (c.analysis.addListed d.name (some d.id) i f).vars.size := by
          rw [c.analysis.size_vars_addListed, hvnew]
          exact Nat.lt_succ_self _
        rw [List.head?_map, ← hc.layout, hf, (hk.grows.var v hlt).2.2, hvar, if_pos hvnew]
    · rw [if_neg hvnew] at hv
      exact .inl hv
  · obtain rfl | rfl := hmv <;> rfl
  · rw [hb.keeps.2.1, c.analysis.size_layouts_addListed]

theorem Marked.receiver (h : Marked w c p) (hc : Agrees c p) (hq : p.next .receiver = some q)
    (hp : ∃ rest, p.around.map (·.function) = 0 :: rest) (hthis : c.analysis.member.this = none)
    (hi : 0 < c.analysis.layouts.size) :
    Marked (w ++ [.receiver]) { c with analysis := c.analysis.addReceiver i 0 } q := by
  have hx : Extends c.analysis (c.analysis.addReceiver i 0) :=
    (extends_addListed ..).trans (extends_editLayout _ 0 fun _ => ⟨rfl, rfl, rfl⟩)
  have hvar (v : Nat) : (c.analysis.addReceiver i 0).var v = _ :=
    c.analysis.var_addListed "this" none i 0 v
  have hdecl (v : Nat) : ((c.analysis.addReceiver i 0).var v).decl = (c.analysis.var v).decl := by
    rw [hvar]
    split
    · next hv => rw [hv, Analysis.var_of_le (Nat.le_refl _), decl_default]
    · rfl
  have hthis' := Analysis.this_addReceiver hc.shape.first.2.2 hi i
  refine h.advance hc hq hx ?_ ?_ nofun (fun v hv => hv.elim) ?_ ?_ ?_ (h.nodes.same rfl hx ?_)
  · intro x hxw v
    cases x with
    | mention => rw [Move.refersTo, Move.refersTo, hdecl]
    | this place =>
      obtain ⟨u, hu⟩ := h.known _ hxw rfl
      cases hthis.symm.trans hu
    | _ => rfl
  · intro x _ v hv
    cases x with
    | declare e => exact (hdecl v).trans hv
    | parameter e => exact (hdecl v).trans hv
    | receiver => cases hthis.symm.trans hv
    | _ => exact hv
  · intro v
    rw [show ((c.analysis.addReceiver i 0).var v).isCaptured = _ from
      captured_addListed c.analysis "this" none i 0 v]
    simp [Move.refersTo]
  · intro j
    rw [show ((c.analysis.addReceiver i 0).scope j).isForced = _ from
      forced_addListed c.analysis "this" none i 0 j]
    simp [Move.refersTo]
  · intro v hv
    rw [hdecl, hthis'] at hv
    rcases hv with hv | hv
    · exact .inl (.inl hv)
    · obtain ⟨rest, hrest⟩ := hp
      refine .inr ⟨hthis'.trans hv, ?_⟩
      cases hv
      rw [hrest, hvar, if_pos rfl]
      rfl
  · simp [Analysis.addReceiver]

/-! ## Runs -/

theorem Marked.effect (h : Marked w c p) (hc : Agrees c p) (he : Effect c mv c')
    (hq : p.next mv = some q) : Marked (w ++ [mv]) c' q := by
  cases he with
  | @opens _ l sc b hmv hl hlp hlt hsp hsf hsv hforced hab =>
    have hk : Keeps c.analysis b := ((keeps_addLayout _ hlt).trans (keeps_addScope _ hforced)).trans
      hab.keepsMarks
    refine h.quiet hc hq hk (fun v hv => ?_) ?_ ?_
    · cases mv <;> first | exact hv | cases hmv
    · cases mv <;> first | rfl | cases hmv
    · exact (h.nodes.push hmv).mono ((extends_addScope _ sc).trans hab.extends) hab.keeps.2.1
  | finish =>
    exact h.quiet hc hq (keeps_closures ..) (fun _ => id) rfl
      (h.nodes.same rfl (keeps_closures ..).grows rfl)
  | enter _ _ _ _ hforced =>
    exact h.quiet hc hq (keeps_addScope _ hforced) (fun _ => id) rfl
      (h.nodes.same rfl (extends_addScope ..) rfl)
  | exit => exact h.quiet hc hq (keeps_refl _) (fun _ => id) rfl (h.nodes.same rfl (.refl _) rfl)
  | declare hmv hf hi hnew hab => exact h.declare hc hq hmv hf hnew hab
  | @receiver f i hf hi =>
    obtain ⟨functions, scopes, _ | _, _ | ⟨⟨_ | g, e, inner⟩, _ | _⟩⟩ := p <;> cases hq
    have hlt := (hc.open rfl).2.1
    cases hf.symm.trans (hc.open rfl).1
    refine h.receiver hc rfl ⟨[], rfl⟩ ?_ hlt
    simpa using hc.this
  | @mention place ref v hv =>
    obtain ⟨j, _, hd⟩ := lookupFrom_listed _ _ _ _ hv
    refine h.refer hc hq (fun x => ⟨fun hx => hc.shape.decl_inj x v _ hx hd, ?_⟩) rfl ?_
    · rintro rfl
      exact hd
    · rw [Analysis.lookup, hc.scope] at hv
      exact function_mem_of_lookup hc.shape hc.held hv
  | @this place v hv =>
    refine h.refer hc hq (fun x => ⟨fun hx => Option.some.inj (hx.symm.trans hv), ?_⟩) rfl ?_
    · rintro rfl
      exact hv
    · obtain ⟨_, o, rest, ho⟩ := Spot.next_plain rfl hq
      rw [(hc.shape.this_listed v hv).2]
      obtain ⟨f, hf⟩ : ∃ f, (p.around.map (·.function)).getLast? = some f := by
        rw [ho]
        exact ⟨_, List.getLast?_eq_some_getLast (by simp)⟩
      exact h.first f hf ▸ List.mem_of_getLast? hf
  | help hf hab =>
    exact h.quiet hc hq hab.keepsMarks (fun _ => id) rfl
      (h.nodes.same rfl hab.extends hab.keeps.2.1)
  | count => exact h.quiet hc hq (keeps_refl _) (fun _ => id) rfl (h.nodes.same rfl (.refl _) rfl)
  | request => exact h.quiet hc hq (keeps_refl _) (fun _ => id) rfl (h.nodes.same rfl (.refl _) rfl)

theorem marked_start : Marked [] (Machine.core { state := {} }) {} := by
  have hscope (i : Nat) : ({} : Analysis).scope i = default := Analysis.scope_of_le (Nat.zero_le i)
  have hvar (v : Nat) : ({} : Analysis).var v = default := Analysis.var_of_le (Nat.zero_le v)
  have hthis : ({} : Analysis).member.this = none := rfl
  have hnone (v j : Nat) : ¬ RefersAt [] {} v j := by
    rintro ⟨mv, hmv, _⟩
    simp at hmv
  constructor
  case turn => rfl
  case first => exact fun f hf => by cases hf
  case known => exact fun mv hmv => by cases hmv
  case inside => exact fun v j hv => absurd hv (hnone v j)
  case captured => simp [Machine.core, hvar, hnone]
  case forced => simp [Machine.core, hscope, hnone]
  case declared => simp [Machine.core, hvar, hthis]
  case nodes => exact ⟨rfl, fun f hf => absurd hf (Nat.not_lt_zero f)⟩

/-! ## Members -/

theorem exists_marked {m : Tree.Member} (h : (analyze m).result = .ok a) :
    ∃ c p, Marked (memberMoves m) c p ∧ Shape c.analysis ∧
      Framed c.analysis a c.analysis.scopes.size := by
  obtain ⟨M, hM, rfl⟩ := exists_perform_of_analyze h
  obtain ⟨j, k, hfollow⟩ := Spot.follow_member m
  obtain ⟨hmarked, hagrees⟩ := run_invariant (I := Marked) (u := [])
    (fun hI hc he hq => hI.effect hc he hq) marked_start agrees_start hM hfollow
  exact ⟨M.core, _, hmarked, hagrees.shape, framed_allocate hagrees.shape⟩

theorem Framed.hasFrame_iff (h : Framed a b a.scopes.size) (hi : i < a.scopes.size) :
    (b.scope i).hasFrame = true ↔
      (a.scope i).isForced = true ∨ ∃ v ∈ (b.scope i).vars, (b.var v).isCaptured = true := by
  have hcaptured : (b.scope i).captured = (b.scope i).vars.filter fun v => (b.var v).isCaptured := by
    simp only [h.captured i hi, (h.names.alike.scope i).2.2, h.names.captured]
  rw [h.hasFrame i hi, hcaptured]
  simp

theorem SameNames.refersTo_iff (h : SameNames a b) (mv : Move) (v : Nat) :
    mv.refersTo b v ↔ mv.refersTo a v := by
  cases mv <;> simp only [Move.refersTo, (h.alike.var v).1, h.this_eq]

theorem SameNames.declares_iff (h : SameNames a b) (mv : Move) (v : Nat) :
    mv.declares b v ↔ mv.declares a v := by
  cases mv <;> simp only [Move.declares, (h.alike.var v).1, h.this_eq]

/-- What the references in the word of a member have to do with captures and frames. -/
structure Exact (w : List Move) (a : Analysis) : Prop where
  /-- The functions are those of the word, in the order in which they begin. -/
  numbered : Numbered w a
  entry : ∀ f < a.layouts.size, (a.scope (a.layout f).scope).function = f
  /-- The function of a variable is the innermost one around its declaration. -/
  declared : ∀ v, (a.var v).decl.isSome = true ∨ a.member.this = some v →
    ∃ j, DeclaresAt w a v j ∧ (functionsAt w j).head? = some (a.var v).function
  known : ∀ mv ∈ w, mv.isReference = true → ∃ v, mv.refersTo a v
  inside : ∀ v j, RefersAt w a v j → (a.var v).function ∈ functionsAt w j
  /-- The captured variables are those that a function inside their own refers to. -/
  captured : ∀ v, (a.var v).isCaptured = true ↔
    ∃ j, RefersAt w a v j ∧ (a.var v).function ∈ (functionsAt w j).tail
  /-- The functions from a reference outwards, up to that of the variable, have frames. -/
  linked : ∀ v j, RefersAt w a v j → ∀ i ∈ forcedAt w a v j, (a.scope i).hasFrame = true
  /-- There are no other frames than these and those of captured variables. -/
  needed : ∀ i < a.scopes.size, (a.scope i).hasFrame = true →
    (∃ v ∈ (a.scope i).vars, (a.var v).isCaptured = true) ∨
      ∃ v j, RefersAt w a v j ∧ i ∈ forcedAt w a v j

theorem analyze_captures {m : Tree.Member} {a : Analysis} (h : (analyze m).result = .ok a) :
    Exact (memberMoves m) a := by
  obtain ⟨c, p, hm, hc, hframed⟩ := exists_marked h
  have hnames := hframed.names
  have ha : Shape a := hc.sameNames hnames
  have hsize : a.scopes.size = c.analysis.scopes.size := hnames.alike.sizes.2.1
  have hfunction (v : Nat) : (a.var v).function = (c.analysis.var v).function :=
    (hnames.alike.var v).2.2.1
  have hrefers (v j : Nat) : RefersAt (memberMoves m) a v j ↔
      RefersAt (memberMoves m) c.analysis v j := by
    simp only [RefersAt, hnames.refersTo_iff]
  have hforced (v j : Nat) : forcedAt (memberMoves m) a v j =
      forcedAt (memberMoves m) c.analysis v j := by
    simp only [forcedAt, hfunction, (hnames.alike.layout _).1]
  constructor
  case numbered =>
    refine ⟨hm.nodes.1.trans hnames.alike.sizes.2.2.symm, fun f hf => ?_⟩
    rw [(hnames.layout f).1]
    exact hm.nodes.2 f (hnames.alike.sizes.2.2 ▸ hf)
  case entry => exact fun f hf => (ha.entry f hf).2
  case declared =>
    intro v hv
    rw [(hnames.alike.var v).1, hnames.this_eq] at hv
    obtain ⟨j, _, ⟨mv, hmv, hdecl⟩, hhead⟩ := hm.declared v hv
    exact ⟨j, ⟨mv, hmv, (hnames.declares_iff mv v).mpr hdecl⟩, by rw [hfunction]; exact hhead⟩
  case known =>
    intro mv hmv hr
    obtain ⟨v, hv⟩ := hm.known mv hmv hr
    exact ⟨v, (hnames.refersTo_iff mv v).mpr hv⟩
  case inside =>
    intro v j hv
    rw [hfunction]
    exact hm.inside v j ((hrefers v j).mp hv)
  case captured =>
    intro v
    rw [hnames.captured, hm.captured, hfunction]
    simp only [hrefers]
  case linked =>
    intro v j hv i hi
    rw [hforced] at hi
    have hi' : (c.analysis.scope i).isForced = true :=
      (hm.forced i).mpr ⟨v, j, (hrefers v j).mp hv, hi⟩
    have hlt : i < c.analysis.scopes.size := by
      apply Classical.byContradiction
      intro hlt
      rw [Analysis.scope_of_le (Nat.le_of_not_lt hlt)] at hi'
      cases hi'
    exact (hframed.hasFrame_iff hlt).mpr (.inl hi')
  case needed =>
    intro i hi hframe
    rcases (hframed.hasFrame_iff (hsize ▸ hi)).mp hframe with hf | hv
    · obtain ⟨v, j, hv, hi⟩ := (hm.forced i).mp hf
      exact .inr ⟨v, j, (hrefers v j).mpr hv, by rw [hforced]; exact hi⟩
    · exact .inl hv

theorem nesting_captures : ∃ a, (analyze nesting).result = .ok a ∧
    ((a.var 2).isCaptured && (a.scope 2).hasFrame && (a.scope 4).hasFrame) = true ∧
    Exact (memberMoves nesting) a := by
  obtain ⟨a, ha, hn⟩ := exists_ok (e := (analyze nesting).result)
    (p := fun a => (a.var 2).isCaptured && (a.scope 2).hasFrame && (a.scope 4).hasFrame)
    (by decide +kernel)
  exact ⟨a, ha, hn, analyze_captures ha⟩

end Flowgraph.Scoping
