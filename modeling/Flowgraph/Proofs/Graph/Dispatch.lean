import Flowgraph.Constant.Evaluate
import Flowgraph.Graph.Sources
import Flowgraph.Proofs.Graph.Walk

/-! # Dispatch

What it means that the code of a switch gets to the right case, and that this stays
so while code is added.
-/

namespace Flowgraph.Graph

open Scoping (Variable)
open Flowgraph.Tree (Expr SwitchCase)

/-- Code was added, and no instruction or link taken back. The root may lead to more. -/
structure Code.Extends (c c' : Code) : Prop where
  size : c.size ≤ c'.size
  ops : ∀ i < c.size, (c.op i).isRoot = false → c'.op i = c.op i
  roots : ∀ i, (c.op i).isRoot = true → (c'.op i).isRoot = true
  links : ∀ i j, c.Linked i j → c'.Linked i j

/-- Where control goes from an instruction. The answers tell which values are the ones that
branches compare them with. -/
def Code.advance (c : Code) (answers : Nat → Bool) (i : Nat) : Option Nat :=
  match c.op i with
  | .goto target => some target
  | .branch test (some value) _ yes no =>
    some (if answers value = decide (test = .same) then yes else no)
  | .branch .. => none
  | _ => (c.get i).next

/-- Control goes on behind the instruction, and nothing is called. -/
def Op.isQuiet : Op → Bool
  | .goto _ | .branch .. => false
  | op => !op.calls

theorem Op.isRoot_of_isJoin {op : Op} (h : op.isJoin = true) : op.isRoot = false := by
  rcases op with ⟨kind, _, _⟩ | _
  · cases kind <;> first | rfl | cases h
  all_goals rfl

theorem Op.isQuiet_of_isTarget {op : Op} (h : op.isTarget = true) : op.isQuiet = true := by
  cases op <;> first | rfl | cases h

/-- Control gets from an instruction to another one, over the instructions of the list. -/
inductive Code.Goes (c : Code) (answers : Nat → Bool) : Nat → List Nat → Nat → Prop
  | here (i : Nat) : Goes c answers i [] i
  | step {i j k : Nat} {path : List Nat} : c.advance answers i = some j → Goes c answers j path k →
    Goes c answers i (i :: path) k

/-- Control gets from an instruction to another one and makes the calls of the list. -/
def Code.Passes (c : Code) (answers : Nat → Bool) (i : Nat) (calls : List Nat) (j : Nat) : Prop :=
  ∃ path, c.Goes answers i path j ∧ path.filter (fun k => (c.op k).calls) = calls

section Passes

variable {c c' : Code} {answers : Nat → Bool} {i j k x : Nat} {l l' : List Nat} {op : Op}

theorem Code.extends_of_ops (hsize : c.size ≤ c'.size) (hops : ∀ i < c.size, c'.op i = c.op i)
    (hlinks : ∀ i j, c.Linked i j → c'.Linked i j) : c.Extends c' where
  size := hsize
  ops i hi _ := hops i hi
  roots i hr := by
    by_cases hi : i < c.size
    · rwa [hops i hi]
    · rw [Code.op_of_le (Nat.le_of_not_lt hi)] at hr
      cases hr
  links := hlinks

theorem Code.Extends.refl (c : Code) : c.Extends c :=
  Code.extends_of_ops le_rfl (fun _ _ => rfl) fun _ _ h => h

theorem Code.Extends.trans {c'' : Code} (h : c.Extends c') (h' : c'.Extends c'') : c.Extends c'' where
  size := h.size.trans h'.size
  ops i hi hr := by
    have heq := h.ops i hi hr
    exact (h'.ops i (hi.trans_le h.size) (heq ▸ hr)).trans heq
  roots i hr := h'.roots i (h.roots i hr)
  links i j hij := h'.links i j (h.links i j hij)

theorem Op.isRoot_of_asEntry (h : op.asEntry = none) : op.isRoot = false := by
  cases op <;> first | rfl | cases h

theorem Code.Extends.op_eq (h : c.Extends c') (ho : c.op i = op) (hne : op.asEntry = none) :
    c'.op i = op := by
  by_cases hi : i < c.size
  · rw [h.ops i hi (ho ▸ Op.isRoot_of_asEntry hne), ho]
  · rw [Code.op_of_le (Nat.le_of_not_lt hi)] at ho
    rw [← ho] at hne
    cases hne

/-- The root is told from other instructions by nothing but what it leads to. -/
theorem Code.Extends.op_or (h : c.Extends c') (hi : i < c.size) :
    c'.op i = c.op i ∨ ∃ e e', c.op i = .entry e ∧ c'.op i = .entry e' := by
  cases hr : (c.op i).isRoot with
  | false => exact .inl (h.ops i hi hr)
  | true =>
    have hr' := h.roots i hr
    cases ho : c.op i <;> cases ho' : c'.op i <;> simp_all [Op.isRoot]

theorem Code.Extends.isQuiet (h : c.Extends c') (hi : i < c.size) :
    (c'.op i).isQuiet = (c.op i).isQuiet := by
  rcases h.op_or hi with hop | ⟨e, e', hop, hop'⟩
  · rw [hop]
  · rw [hop, hop']
    rfl

theorem Code.Extends.calls (h : c.Extends c') (hi : i < c.size) :
    (c'.op i).calls = (c.op i).calls := by
  rcases h.op_or hi with hop | ⟨e, e', hop, hop'⟩
  · rw [hop]
  · rw [hop, hop']
    rfl

theorem Code.lt_of_advance (h : c.advance answers i = some j) : i < c.size := by
  by_contra hi
  have hop := Code.op_of_le (Nat.le_of_not_lt hi)
  unfold Code.advance at h
  rw [hop, Code.get_of_le (Nat.le_of_not_lt hi)] at h
  cases h

theorem Code.Extends.advance (h : c.Extends c') (hi : c.advance answers i = some j) :
    c'.advance answers i = some j := by
  rcases h.op_or (Code.lt_of_advance hi) with hop | ⟨e, e', hop, hop'⟩
  · unfold Code.advance at hi ⊢
    rw [hop]
    split at hi
    · exact hi
    · exact hi
    · exact hi
    · exact h.links i j hi
  · unfold Code.advance at hi ⊢
    rw [hop] at hi
    rw [hop']
    exact h.links i j hi

theorem Code.Passes.mono (hp : c.Passes answers i l j) (h : c.Extends c') :
    c'.Passes answers i l j := by
  obtain ⟨path, hg, hl⟩ := hp
  suffices hpath : c'.Goes answers i path j ∧ ∀ k ∈ path, k < c.size by
    refine ⟨path, hpath.1, (List.filter_congr fun k hk => ?_).trans hl⟩
    rw [h.calls (hpath.2 k hk)]
  clear hl
  induction hg with
  | here i => exact ⟨.here i, by simp⟩
  | step hi _ ih =>
    exact ⟨.step (h.advance hi) ih.1, List.forall_mem_cons.mpr ⟨Code.lt_of_advance hi, ih.2⟩⟩

theorem Code.Passes.refl (c : Code) (answers : Nat → Bool) (i : Nat) : c.Passes answers i [] i :=
  ⟨[], .here i, rfl⟩

theorem Code.Passes.cons (hi : c.advance answers i = some j) (hp : c.Passes answers j l k) :
    c.Passes answers i (if (c.op i).calls then i :: l else l) k := by
  obtain ⟨path, hg, rfl⟩ := hp
  exact ⟨i :: path, .step hi hg, List.filter_cons⟩

theorem Code.Passes.trans (h : c.Passes answers i l j) (h' : c.Passes answers j l' k) :
    c.Passes answers i (l ++ l') k := by
  obtain ⟨path, hg, rfl⟩ := h
  induction hg with
  | here => exact h'
  | step hi _ ih =>
    have := (ih h').cons hi
    rw [List.filter_cons]
    split at this <;> simp_all

theorem Code.passes_goto (h : c.op i = .goto j) : c.Passes answers i [] j := by
  have := (Code.Passes.refl c answers j).cons (i := i) (by simp [Code.advance, h])
  rwa [h] at this

theorem Code.passes_link (hq : (c.op i).isQuiet = true) (h : c.Linked i j) :
    c.Passes answers i [] j := by
  have hi : c.advance answers i = some j := by
    unfold Code.advance
    split <;> simp_all [Op.isQuiet, Code.Linked]
  have hcalls : (c.op i).calls = false := by
    unfold Op.isQuiet at hq
    split at hq <;> simp_all
  simpa [hcalls] using (Code.Passes.refl c answers j).cons hi

theorem Code.passes_call {name : String} {arguments : List Use} {names : List String}
    (ho : c.op i = .instanceCall name arguments names) (h : c.Linked i j) :
    c.Passes answers i [i] j := by
  have := (Code.Passes.refl c answers j).cons (i := i) (by simpa [Code.advance, ho, Code.Linked] using h)
  rwa [ho] at this

theorem Code.passes_branch {value constant yes no : Nat}
    (ho : c.op i = .branch .same (some value) (some constant) yes no) :
    c.Passes answers i [] (if answers value then yes else no) := by
  have := (Code.Passes.refl c answers (if answers value then yes else no)).cons (i := i)
    (by simp [Code.advance, ho])
  rwa [ho] at this

end Passes

/-! ## Switches -/

/-- The expression folds to the value. -/
def FoldsTo (e : Expr) (v : Constant.Value) : Prop :=
  ∃ store store', (Constant.fold e).run store = (.ok v, store')

/-- The call at `i` compares what the variable holds with what the expression folds to. Its
answer is compared with true. -/
def Code.TestAt (c : Code) (holder : Variable) (e : Expr) (i : Nat) : Prop :=
  (∃ left right constant load v, FoldsTo e v ∧
    c.op i = .instanceCall Symbols.equalsOperator [some left, some right] [] ∧
    c.op left = .pushArgument (some constant) ∧ c.op constant = .constant v ∧
    c.op right = .pushArgument (some load) ∧ c.op load = .loadLocal holder) ∧
  ∃ branch flag v yes no, c.op branch = .branch .same (some i) (some flag) yes no ∧
    c.op flag = .constant v ∧ v.key = .bool true

/-- The calls up to the first that is answered with yes. -/
def untilTrue (answers : Nat → Bool) : List Nat → List Nat
  | [] => []
  | i :: is => i :: if answers i then [] else untilTrue answers is

/-- The tests of the cases from an index on, in the order of the source, each with the index of
its case. -/
def orderedTests (index : Nat) : List SwitchCase → List (Nat × Expr)
  | [] => []
  | c :: cs => (if c.isDefault then [] else c.tests.map fun e => (index, e)) ++
    orderedTests (index + 1) cs

/-- Where control goes if all tests fail: to the default from the index on, or to the exit. -/
def otherwise (start : Nat → Option Nat) (exit : Option Nat) (index : Nat)
    (cases : List SwitchCase) : Option Nat :=
  (cases.findIdx? (·.isDefault)).elim exit fun k => start (index + k)

/-- From `x` on the calls are made in order, up to the first that is answered with yes. Control
gets to the start of its case, or to `other` if there is none. -/
def Code.Chooses (c : Code) (start : Nat → Option Nat) (x : Nat) (asked : List (Nat × Nat))
    (other : Option Nat) : Prop :=
  ∀ answers, ∃ j, (asked.find? fun p => answers p.2).elim other (fun p => start p.1) = some j ∧
    c.Passes answers x (untilTrue answers (asked.map (·.2))) j

/-- From `x` on, calls from `low` on ask the tests in order and choose by the answers. -/
def Code.Asks (c : Code) (holder : Variable) (start : Nat → Option Nat) (low : Nat)
    (tests : List (Nat × Expr)) (x : Nat) (other : Option Nat) : Prop :=
  ∃ asked : List (Nat × Nat), (asked.map (·.2)).Nodup ∧ (∀ p ∈ asked, low ≤ p.2 ∧ p.2 < c.size) ∧
    List.Forall₂ (fun t p => t.1 = p.1 ∧ c.TestAt holder t.2 p.2) tests asked ∧
    c.Chooses start x asked other

namespace SwitchLayout

variable (n : SwitchLayout)

def sources : List SwitchCase := n.cases.map (·.source)

/-- Where a case is entered. -/
def start (k : Nat) : Option Nat := n.cases[k]?.bind fun case => case.join.or case.body.entry

end SwitchLayout

/-- The code of a switch does what the switch says. -/
structure Dispatches (c : Code) (n : SwitchLayout) : Prop where
  /-- The subject comes first. -/
  entry : n.whole.entry = n.code.entry
  /-- The value of the subject is stored once. Then the tests are made in order, up to the first
  that is answered with yes, and control enters the case of that test. -/
  tests : ∀ x, n.code.exit = some x → ∃ i asked, c.Linked x i ∧
    c.op i = .storeLocal n.holder n.value ∧ (asked.map (·.2)).Nodup ∧
    List.Forall₂ (fun t p => t.1 = p.1 ∧ c.TestAt n.holder t.2 p.2) (orderedTests 0 n.sources) asked ∧
    c.Chooses n.start i asked (otherwise n.start n.whole.exit 0 n.sources)
  /-- Behind the join in front of a case is its body. -/
  bodies : ∀ case ∈ n.cases, ∃ e, case.body.entry = some e ∧
    ∀ j, case.join = some j → (c.op j).isJoin = true ∧ c.Linked j e
  /-- No two cases have one body. -/
  distinct : (n.cases.filterMap (·.body.entry)).Nodup
  /-- Several tests share a join. -/
  shared : ∀ case ∈ n.cases, 1 < case.source.tests.length → case.join.isSome = true
  /-- A body runs into the next one. -/
  falls : ∀ k case next, n.cases[k]? = some case → n.cases[k + 1]? = some next →
    ∀ x, case.body.exit = some x →
      ∃ i j, c.Linked x i ∧ c.op i = .goto j ∧ next.join = some j
  /-- The last body runs into what follows the switch. -/
  ends : ∀ case, n.cases.getLast? = some case → ∀ x, case.body.exit = some x →
    if case.source.isDefault then n.code.exit.isSome = true → n.whole.exit = some x
    else ∃ i j, c.Linked x i ∧ c.op i = .goto j ∧ n.whole.exit = some j

/-- The instruction at `i` is in the switch and jumps to the case with the id. -/
def ContinuesTo (c : Code) (n : SwitchLayout) (i id : Nat) : Prop :=
  n.first ≤ i ∧ i < n.past ∧ ∃ j, c.op i = .goto j ∧
    ∃ case ∈ n.cases, case.source.id = id ∧ case.join = some j

theorem orderedTests_cons {index : Nat} {case : SwitchCase} {cases : List SwitchCase}
    (h : case.isDefault = false) : orderedTests index (case :: cases) =
      case.tests.map (fun e => (index, e)) ++ orderedTests (index + 1) cases := by
  rw [orderedTests, h]
  rfl

theorem otherwise_cons {start : Nat → Option Nat} {exit : Option Nat} {index : Nat}
    {case : SwitchCase} {cases : List SwitchCase} (h : case.isDefault = false) :
    otherwise start exit index (case :: cases) = otherwise start exit (index + 1) cases := by
  unfold otherwise
  rw [List.findIdx?_cons, h]
  cases cases.findIdx? (·.isDefault) with
  | none => rfl
  | some k => exact congrArg start (show index + (k + 1) = index + 1 + k by omega)

section Chooses

variable {c : Code} {start : Nat → Option Nat} {x y : Nat} {asked asked' : List (Nat × Nat)}
  {other : Option Nat}

theorem untilTrue_append (answers : Nat → Bool) (l l' : List Nat) :
    untilTrue answers (l ++ l') =
      if l.any answers then untilTrue answers l else untilTrue answers l ++ untilTrue answers l' := by
  induction l with
  | nil => rfl
  | cons i is ih =>
    cases hi : answers i
    · rw [List.cons_append, untilTrue, untilTrue, hi, ih, List.any_cons, hi, Bool.false_or]
      cases is.any answers <;> rfl
    · simp [untilTrue, hi]

theorem Code.Chooses.trans (h : c.Chooses start x asked (some y))
    (h' : c.Chooses start y asked' other) : c.Chooses start x (asked ++ asked') other := by
  intro answers
  obtain ⟨j, hj, hp⟩ := h answers
  rw [List.map_append, untilTrue_append, List.find?_append]
  cases hfind : asked.find? fun p => answers p.2 with
  | some p =>
    have hany : (asked.map (·.2)).any answers = true := by
      rw [List.any_map, List.any_eq_true]
      exact ⟨p, List.mem_of_find?_eq_some hfind, List.find?_some hfind⟩
    rw [hfind] at hj
    rw [if_pos hany]
    exact ⟨j, hj, hp⟩
  | none =>
    have hnone : (asked.map (·.2)).any answers = false := by
      rw [List.any_map, List.any_eq_false]
      exact List.find?_eq_none.mp hfind
    obtain rfl : y = j := by simpa [hfind] using hj
    obtain ⟨k, hk, hp'⟩ := h' answers
    rw [if_neg (by simp [hnone])]
    exact ⟨k, hk, hp.trans hp'⟩

theorem Code.chooses_one {index i : Nat} (hyes : start index = some y) {z : Nat}
    (h : ∀ answers, c.Passes answers x [i] (if answers i then y else z)) :
    c.Chooses start x [(index, i)] (some z) := by
  intro answers
  have hp := h answers
  cases hi : answers i
  · exact ⟨z, by simp [hi], by simpa [untilTrue, hi] using hp⟩
  · exact ⟨y, by simpa [hi] using hyes, by simpa [untilTrue, hi] using hp⟩

end Chooses

section Dispatches

variable {c c' : Code} {n : SwitchLayout}

theorem Code.TestAt.mono {holder : Variable} {e : Expr} {i : Nat} (h : c.TestAt holder e i)
    (hc : c.Extends c') : c'.TestAt holder e i := by
  obtain ⟨⟨left, right, constant, load, v, hv, hi, hl, hk, hr, ho⟩, branch, flag, w, yes, no, hb,
    hf, hw⟩ := h
  exact ⟨⟨left, right, constant, load, v, hv, hc.op_eq hi rfl, hc.op_eq hl rfl, hc.op_eq hk rfl,
    hc.op_eq hr rfl, hc.op_eq ho rfl⟩, branch, flag, w, yes, no, hc.op_eq hb rfl,
    hc.op_eq hf rfl, hw⟩

theorem Code.Chooses.mono {start : Nat → Option Nat} {x : Nat} {asked : List (Nat × Nat)}
    {other : Option Nat} (h : c.Chooses start x asked other) (hc : c.Extends c') :
    c'.Chooses start x asked other := fun answers => by
  obtain ⟨j, hj, hp⟩ := h answers
  exact ⟨j, hj, hp.mono hc⟩

theorem Code.Asks.of_passes {holder : Variable} {start : Nat → Option Nat} {low x y : Nat}
    (h : ∀ answers, c.Passes answers x [] y) : c.Asks holder start low [] x (some y) :=
  ⟨[], .nil, by simp, .nil, fun answers => ⟨y, rfl, h answers⟩⟩

theorem Code.asks_one {holder : Variable} {start : Nat → Option Nat} {low index x y z i : Nat}
    {e : Expr} (ht : c.TestAt holder e i) (hi : low ≤ i) (hstart : start index = some y)
    (h : ∀ answers, c.Passes answers x [i] (if answers i then y else z)) :
    c.Asks holder start low [(index, e)] x (some z) := by
  have hlt : i < c.size := by
    obtain ⟨⟨_, _, _, _, _, _, hop, -⟩, -⟩ := ht
    by_contra hle
    rw [Code.op_of_le (Nat.le_of_not_lt hle)] at hop
    cases hop
  exact ⟨[(index, i)], by simp, by simp [hi, hlt], .cons ⟨rfl, ht⟩ .nil, Code.chooses_one hstart h⟩

theorem Code.Asks.trans {holder : Variable} {start : Nat → Option Nat} {low x y : Nat}
    {tests tests' : List (Nat × Expr)} {other : Option Nat}
    (h : c.Asks holder start low tests x (some y)) (hc : c.Extends c')
    (h' : c'.Asks holder start c.size tests' y other) (hlow : low ≤ c.size) :
    c'.Asks holder start low (tests ++ tests') x other := by
  obtain ⟨asked, hnodup, hbound, htests, hchoose⟩ := h
  obtain ⟨asked', hnodup', hbound', htests', hchoose'⟩ := h'
  refine ⟨asked ++ asked', ?_, ?_, ?_, (hchoose.mono hc).trans hchoose'⟩
  · rw [List.map_append]
    refine hnodup.append hnodup' fun i hi hi' => ?_
    obtain ⟨p, hp, rfl⟩ := List.mem_map.mp hi
    obtain ⟨q, hq, hqp⟩ := List.mem_map.mp hi'
    have := (hbound p hp).2
    have := (hbound' q hq).1
    omega
  · intro p hp
    rcases List.mem_append.mp hp with hp | hp
    · exact ⟨(hbound p hp).1, (hbound p hp).2.trans_le hc.size⟩
    · exact ⟨hlow.trans (hbound' p hp).1, (hbound' p hp).2⟩
  · refine List.rel_append (htests.imp fun t p ht => ⟨ht.1, ht.2.mono hc⟩) htests'

theorem Code.Extends.isJoin {j e : Nat} (hc : c.Extends c')
    (h : (c.op j).isJoin = true ∧ c.Linked j e) : (c'.op j).isJoin = true ∧ c'.Linked j e := by
  have hr : (c.op j).isRoot = false := Op.isRoot_of_isJoin h.1
  exact ⟨hc.ops j (Code.lt_of_next h.2) hr ▸ h.1, hc.links j e h.2⟩

theorem Dispatches.mono (h : Dispatches c n) (hc : c.Extends c') : Dispatches c' n where
  entry := h.entry
  tests x hx := by
    obtain ⟨i, asked, hlink, hop, hnodup, htests, hchoose⟩ := h.tests x hx
    exact ⟨i, asked, hc.links x i hlink, hc.op_eq hop rfl, hnodup,
      htests.imp fun t p ht => ⟨ht.1, ht.2.mono hc⟩, hchoose.mono hc⟩
  bodies case hcase := by
    obtain ⟨e, he, hj⟩ := h.bodies case hcase
    exact ⟨e, he, fun j hjoin => hc.isJoin (hj j hjoin)⟩
  distinct := h.distinct
  shared := h.shared
  falls k case next hk hnext x hx := by
    obtain ⟨i, j, hlink, hop, hj⟩ := h.falls k case next hk hnext x hx
    exact ⟨i, j, hc.links x i hlink, hc.op_eq hop rfl, hj⟩
  ends case hlast x hx := by
    have := h.ends case hlast x hx
    split at this
    · rwa [if_pos ‹_›]
    · rw [if_neg ‹_›]
      obtain ⟨i, j, hlink, hop, hj⟩ := this
      exact ⟨i, j, hc.links x i hlink, hc.op_eq hop rfl, hj⟩

theorem ContinuesTo.mono {i id : Nat} (h : ContinuesTo c n i id) (hc : c.Extends c') :
    ContinuesTo c' n i id := by
  obtain ⟨hfirst, hpast, j, hop, hcase⟩ := h
  exact ⟨hfirst, hpast, j, hc.op_eq hop rfl, hcase⟩

end Dispatches

end Flowgraph.Graph
