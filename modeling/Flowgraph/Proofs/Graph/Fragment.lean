import Flowgraph.Proofs.Graph.Walk

/-! # Appending fragments

To append links the exit of one fragment to the entry of the other in the code itself. As long
as fragments have no instruction in common, it does not matter which of two links is made first,
and the links behind a closed fragment are never met on its chain.
-/

namespace Flowgraph.Graph

/-- The second instruction is on the chain that starts with the first one. -/
def Code.Chained (c : Code) : Nat → Nat → Prop := Relation.ReflTransGen c.Linked

section Chained

variable {c d : Code} {e i j x : Nat} {n : Nat}

theorem forward_none : c.forward n none = [] := by cases n <;> rfl

/-- Only the links of its own instructions make a chain. -/
theorem forward_congr (h : ∀ j, c.Chained i j → (d.get j).next = (c.get j).next) :
    d.forward n (some i) = c.forward n (some i) := by
  induction n generalizing i with
  | zero => rfl
  | succ n ih =>
    change i :: d.forward n (d.get i).next = i :: c.forward n (c.get i).next
    rw [h i .refl]
    cases hi : (c.get i).next with
    | none => rw [forward_none, forward_none]
    | some k => rw [ih fun j hj => h j (.head hi hj)]

/-- The chain up to an end goes on with what the end is linked to. -/
theorem forward_through {next : Option Nat} (hend : (c.get x).next = none)
    (hd : ∀ j, (d.get j).next = if j = x then next else (c.get j).next)
    (hnext : ∀ k, next = some k → ¬ c.Chained k x) (h : c.Chained i x) :
    ∃ l : List Nat, ∀ n, c.forward (l.length + n) (some i) = l ∧
      d.forward (l.length + n) (some i) = l ++ c.forward n next := by
  induction h using Relation.ReflTransGen.head_induction_on with
  | refl =>
    refine ⟨[x], fun n => ?_⟩
    have hrest : d.forward n next = c.forward n next := by
      cases next with
      | none => rw [forward_none, forward_none]
      | some k =>
        refine forward_congr fun j hj => (hd j).trans (if_neg ?_)
        rintro rfl
        exact hnext k rfl hj
    rw [List.length_singleton, Nat.add_comm]
    change x :: c.forward n (c.get x).next = [x] ∧
      x :: d.forward n (d.get x).next = x :: c.forward n next
    rw [hend, hd, if_pos rfl, forward_none, hrest]
    exact ⟨rfl, rfl⟩
  | @head i k hik _ ih =>
    obtain ⟨l, hl⟩ := ih
    have hne : i ≠ x := by
      rintro rfl
      cases hik.symm.trans hend
    refine ⟨i :: l, fun n => ?_⟩
    rw [List.length_cons, Nat.succ_add]
    change i :: c.forward (l.length + n) (c.get i).next = i :: l ∧
      i :: d.forward (l.length + n) (d.get i).next = i :: (l ++ c.forward n next)
    rw [hd, if_neg hne, show (c.get i).next = some k from hik, (hl n).1, (hl n).2]
    exact ⟨rfl, rfl⟩

variable (hx : x < c.size) (he : e < c.size)

include hx he

theorem next_link (k : Nat) :
    ((c.link x e).get k).next = if k = x then some e else (c.get k).next := by
  rw [Code.get_link c x e k hx he]

theorem Code.Chained.link (hend : (c.get x).next = none) (h : c.Chained i j) :
    (c.link x e).Chained i j := by
  refine Relation.ReflTransGen.mono (fun a b hab => ?_) _ _ h
  have hne : a ≠ x := by
    rintro rfl
    cases hab.symm.trans hend
  rw [Code.Linked, next_link hx he, if_neg hne]
  exact hab

theorem Code.Chained.of_link (h : (c.link x e).Chained i j) : c.Chained i j ∨ c.Chained e j := by
  induction h with
  | refl => exact .inl .refl
  | @tail j k _ hjk ih =>
    rw [Code.Linked, next_link hx he] at hjk
    split at hjk
    · exact .inr (Option.some.inj hjk ▸ .refl)
    · exact ih.imp (.tail · hjk) (.tail · hjk)

end Chained

namespace Fragment

variable {c : Code} {f g h : Fragment} {i : Nat}

/-- The instruction is on the chain of the fragment. -/
def Holds (c : Code) (f : Fragment) (i : Nat) : Prop := ∃ e, f.entry = some e ∧ c.Chained e i

theorem holds_subset {l : List Nat} (hl : ∀ i ∈ l, ∀ j ∈ (c.get i).next, j ∈ l)
    (he : ∀ e ∈ f.entry, e ∈ l) (h : f.Holds c i) : i ∈ l := by
  obtain ⟨e, hentry, hi⟩ := h
  induction hi with
  | refl => exact he e hentry
  | @tail i j _ hij ih => exact hl i ih j hij

/-- The chain consists of instructions of the code and ends at the exit, if there is one. -/
structure WellFormed (c : Code) (f : Fragment) : Prop where
  bound : ∀ i, f.Holds c i → i < c.size
  exit : ∀ x, f.exit = some x → f.Holds c x ∧ (c.get x).next = none

/-- The fragments have no instruction in common. -/
def Apart (c : Code) (f g : Fragment) : Prop := ∀ i, f.Holds c i → ¬ g.Holds c i

theorem WellFormed.cases (hf : f.WellFormed c) : f = empty ∨ (∃ e, f = ⟨some e, none⟩) ∨
    ∃ e x, f = ⟨some e, some x⟩ ∧ c.Chained e x ∧ (c.get x).next = none := by
  obtain ⟨_ | e, _ | x⟩ := f
  · exact .inl rfl
  · obtain ⟨⟨e, he, -⟩, -⟩ := hf.exit x rfl
    cases he
  · exact .inr (.inl ⟨e, rfl⟩)
  · obtain ⟨⟨e', he, hx⟩, hnext⟩ := hf.exit x rfl
    cases he
    exact .inr (.inr ⟨e, x, rfl, hx, hnext⟩)

theorem append_empty (hf : f.WellFormed c) : f.append empty c = (f, c) := by
  obtain rfl | ⟨e, rfl⟩ | ⟨e, x, rfl, -⟩ := hf.cases <;> rfl

theorem append_of_isClosed (hf : f.isClosed = true) (g : Fragment) : f.append g c = (f, c) := by
  obtain ⟨_ | e, _ | x⟩ := f
  · cases hf
  · cases hf
  · rfl
  · cases hf

theorem WellFormed.append (hf : f.WellFormed c) (hg : g.WellFormed c) (hfg : f.Apart c g) :
    (f.append g c).1.WellFormed (f.append g c).2 := by
  obtain rfl | ⟨e, rfl⟩ | ⟨e, x, rfl, hchain, hend⟩ := hf.cases
  · exact hg
  · exact hf
  obtain ⟨_ | k, y⟩ := g
  · exact hf
  have hx : x < c.size := hf.bound x ⟨e, rfl, hchain⟩
  have hk : k < c.size := hg.bound k ⟨k, rfl, .refl⟩
  refine ⟨fun i hi => ?_, fun z hz => ?_⟩
  · obtain ⟨e', he, hi⟩ := hi
    cases he
    refine (Code.size_link (c := c)).symm ▸ ?_
    obtain hi | hi := hi.of_link hx hk
    · exact hf.bound i ⟨e, rfl, hi⟩
    · exact hg.bound i ⟨k, rfl, hi⟩
  · obtain ⟨⟨k', hk', hkz⟩, hnext⟩ := hg.exit z hz
    cases hk'
    have hne : z ≠ x := fun hzx => hfg x ⟨e, rfl, hchain⟩ ⟨k, rfl, hzx ▸ hkz⟩
    have hlink : (c.link x k).Linked x k := by rw [Code.Linked, next_link hx hk, if_pos rfl]
    refine ⟨⟨e, rfl, ((hchain.link hx hk hend).tail hlink).trans (hkz.link hx hk hend)⟩, ?_⟩
    exact (next_link hx hk z).trans ((if_neg hne).trans hnext)

/-- An open fragment goes on with the fragment appended to it. -/
theorem forward_append (hf : f.WellFormed c) (hg : g.WellFormed c) (hfg : f.Apart c g)
    (hopen : f.isOpen = true) : ∃ l : List Nat, ∀ n, c.forward (l.length + n) f.entry = l ∧
      (f.append g c).2.forward (l.length + n) (f.append g c).1.entry = l ++ c.forward n g.entry := by
  obtain rfl | ⟨e, rfl⟩ | ⟨e, x, rfl, hchain, hend⟩ := hf.cases
  · exact ⟨[], fun n => ⟨forward_none, by simp [Fragment.append, empty]⟩⟩
  · cases hopen
  have hx : x < c.size := hf.bound x ⟨e, rfl, hchain⟩
  obtain ⟨_ | k, y⟩ := g
  · refine forward_through hend (fun j => ?_) nofun hchain
    split
    · subst j
      exact hend
    · rfl
  · exact forward_through hend (next_link hx (hg.bound k ⟨k, rfl, .refl⟩))
      (fun _ hk hkx => hfg x ⟨e, rfl, hchain⟩ ⟨k, rfl, Option.some.inj hk ▸ hkx⟩) hchain

/-- The chain of a fragment never meets a link between others. -/
theorem forward_of_apart (hg : g.WellFormed c) (hh : h.WellFormed c) (hfg : f.Apart c g) (n : Nat) :
    (g.append h c).2.forward n f.entry = c.forward n f.entry := by
  obtain ⟨_ | e, _⟩ := f
  · rw [forward_none, forward_none]
  obtain rfl | ⟨k, rfl⟩ | ⟨k, y, rfl, hchain, -⟩ := hg.cases
  · rfl
  · rfl
  obtain ⟨_ | m, _⟩ := h
  · rfl
  have hy : y < c.size := hg.bound y ⟨k, rfl, hchain⟩
  refine forward_congr fun j hj => (next_link hy (hh.bound m ⟨m, rfl, .refl⟩) j).trans (if_neg ?_)
  rintro rfl
  exact hfg j ⟨e, rfl, hj⟩ ⟨k, rfl, hchain⟩

theorem forward_assoc (hf : f.WellFormed c) (hg : g.WellFormed c) (hh : h.WellFormed c)
    (hfg : f.Apart c g) :
    let left := (f.append g c).1.append h (f.append g c).2
    let right := f.append (g.append h c).1 (g.append h c).2
    left.1 = right.1 ∧ ∀ n, left.2.forward n left.1.entry = right.2.forward n right.1.entry := by
  obtain rfl | ⟨e, rfl⟩ | ⟨e, x, rfl, hchain, -⟩ := hf.cases
  · exact ⟨rfl, fun _ => rfl⟩
  · exact ⟨rfl, fun n => (forward_of_apart hg hh hfg n).symm⟩
  obtain rfl | ⟨k, rfl⟩ | ⟨k, y, rfl, hchain', -⟩ := hg.cases
  · exact ⟨rfl, fun _ => rfl⟩
  · exact ⟨rfl, fun _ => rfl⟩
  obtain ⟨_ | m, z⟩ := h
  · exact ⟨rfl, fun _ => rfl⟩
  -- Both links are made, in one order or in the other.
  have hx : x < c.size := hf.bound x ⟨e, rfl, hchain⟩
  have hy : y < c.size := hg.bound y ⟨k, rfl, hchain'⟩
  have hk : k < c.size := hg.bound k ⟨k, rfl, .refl⟩
  have hm : m < c.size := hh.bound m ⟨m, rfl, .refl⟩
  have hxy : x ≠ y := fun hxy => hfg x ⟨e, rfl, hchain⟩ ⟨k, rfl, hxy ▸ hchain'⟩
  refine ⟨rfl, fun n => forward_congr fun j _ => ?_⟩
  change (((c.link x k).link y m).get j).next = (((c.link y m).link x k).get j).next
  rw [next_link (by simpa) (by simpa), next_link hx hk, next_link (by simpa) (by simpa),
    next_link hy hm]
  grind

/-- Fragments without common instructions are a monoid in which closed fragments absorb what is
appended to them, and an open fragment goes on with what is appended. -/
theorem append_monoid (hf : f.WellFormed c) (hg : g.WellFormed c) (hh : h.WellFormed c)
    (hfg : f.Apart c g) :
    (let left := (f.append g c).1.append h (f.append g c).2
     let right := f.append (g.append h c).1 (g.append h c).2
     (∀ n, left.2.forward n left.1.entry = right.2.forward n right.1.entry) ∧
       left.1.exit = right.1.exit ∧ left.1.isOpen = right.1.isOpen) ∧
    empty.append f c = (f, c) ∧ f.append empty c = (f, c) ∧
    (f.isClosed = true → ∀ g, f.append g c = (f, c)) ∧
    (f.isOpen = true → ∃ l : List Nat, ∀ n, c.forward (l.length + n) f.entry = l ∧
      (f.append g c).2.forward (l.length + n) (f.append g c).1.entry = l ++ c.forward n g.entry) ∧
    (f.append g c).1.WellFormed (f.append g c).2 := by
  obtain ⟨hsame, hchain⟩ := forward_assoc hf hg hh hfg
  exact ⟨⟨hchain, congrArg exit hsame, congrArg isOpen hsame⟩, rfl, append_empty hf,
    append_of_isClosed, forward_append hf hg hfg, hf.append hg hfg⟩

/-- Two linked instructions, a single one and a closed fragment. -/
theorem linked_append_monoid : ∃ c : Code, ∃ f g h : Fragment, f.WellFormed c ∧ g.WellFormed c ∧
    h.WellFormed c ∧ f.Apart c g ∧ c.forward 4 f.entry = [0, 1] ∧
      (f.append (g.append h c).1 (g.append h c).2).2.forward 4 f.entry = [0, 1, 2, 3] := by
  let c : Code := #[{ op := .allocateContext 0, next := some 1 }, { op := .allocateContext 1 },
    { op := .allocateContext 2 }, { op := .goto 3 }]
  have hfirst : ∀ i, Holds c ⟨some 0, some 1⟩ i → i ∈ [0, 1] := fun i hi =>
    holds_subset (by decide) (by decide) hi
  have hsecond : ∀ i, Holds c (single 2) i → i ∈ [2] := fun i hi =>
    holds_subset (by decide) (by decide) hi
  have hthird : ∀ i, Holds c ⟨some 3, none⟩ i → i ∈ [3] := fun i hi =>
    holds_subset (by decide) (by decide) hi
  have hsize : ∀ i ∈ [0, 1, 2, 3], i < c.size := by decide
  have hf : WellFormed c ⟨some 0, some 1⟩ := by
    refine ⟨fun i hi => hsize i (by have := hfirst i hi; grind), ?_⟩
    rintro x ⟨⟩
    exact ⟨⟨0, rfl, .single rfl⟩, rfl⟩
  have hg : WellFormed c (single 2) := by
    refine ⟨fun i hi => hsize i (by have := hsecond i hi; grind), ?_⟩
    rintro x ⟨⟩
    exact ⟨⟨2, rfl, .refl⟩, rfl⟩
  have hh : WellFormed c ⟨some 3, none⟩ :=
    ⟨fun i hi => hsize i (by have := hthird i hi; grind), nofun⟩
  have hfg : Apart c ⟨some 0, some 1⟩ (single 2) := fun i hi hi' => by
    have := hfirst i hi
    have := hsecond i hi'
    grind
  exact ⟨c, _, _, _, hf, hg, hh, hfg, rfl, ((append_monoid hf hg hh hfg).1.1 4).symm.trans rfl⟩

end Fragment

end Flowgraph.Graph
