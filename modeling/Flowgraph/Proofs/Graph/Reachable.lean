import Flowgraph.Graph.Basic
import Mathlib.Data.List.Basic

/-! # What a search reaches

A property of the root that control carries from block to block holds of every
block of the graph, and one that links carry along holds of every instruction of a
block.
-/

namespace Flowgraph.Graph

variable {c : Code} {P : Nat → Prop}

theorem mem_follow {step : Instruction → Option Nat} (hP : ∀ i j, P i → step (c.get i) = some j → P j)
    {n : Nat} {start : Option Nat} (hs : ∀ i, start = some i → P i) :
    ∀ i ∈ c.follow step n start, P i := by
  induction n generalizing start with
  | zero => nofun
  | succ n ih =>
    cases start with
    | none => nofun
    | some k =>
      intro i hi
      have hk := hs k rfl
      rcases List.mem_cons.mp hi with rfl | hi
      · exact hk
      · exact ih (fun j hj => hP k j hk hj) i hi

/-- What holds of the entry of a block and is carried along holds of all its instructions. -/
theorem Code.mem_body {b : Nat} (hP : ∀ i j, P i → (c.get i).next = some j → P j) (hb : P b) :
    ∀ i ∈ c.body b, P i :=
  mem_follow hP fun j hj => hP b j hb hj

theorem Code.lastOf_eq (c : Code) (b : Nat) : c.lastOf b = b ∨ c.lastOf b ∈ c.body b := by
  unfold lastOf
  rw [List.getLastD_eq_getLast?]
  cases h : (c.body b).getLast? with
  | none => exact .inl rfl
  | some i => exact .inr (List.mem_of_getLast? h)

/-- Go on from a block to one that it leads to. -/
def Search.follow (c : Code) (n b : Nat) (s : Search) (next : Nat) : Search :=
  (if next ∉ s.started then visit c n s next
    else if next ∉ s.finished then s.addBackEdge ⟨b, next⟩ else s).addEdge ⟨b, next⟩

theorem visit_succ (c : Code) (n : Nat) (s : Search) (b : Nat) : visit c (n + 1) s b =
    ((c.successors b).foldl (Search.follow c n b) (s.start c b)).finish b := rfl

theorem visit_finished (hP : ∀ b, P b → ∀ b' ∈ c.successors b, P b') {n : Nat} {s : Search}
    {b : Nat} (hb : P b) (hs : ∀ x ∈ s.finished, P x) : ∀ x ∈ (visit c n s b).finished, P x := by
  induction n generalizing s b with
  | zero => exact hs
  | succ n ih =>
    have hfold : ∀ (bs : List Nat) (s : Search), (∀ b' ∈ bs, P b') → (∀ x ∈ s.finished, P x) →
        ∀ x ∈ (bs.foldl (Search.follow c n b) s).finished, P x := by
      intro bs
      induction bs with
      | nil => exact fun s _ hs => hs
      | cons b' bs ihs =>
        intro s hbs hs
        refine ihs _ (fun x hx => hbs x (List.mem_cons_of_mem _ hx)) ?_
        change ∀ x ∈ (ite _ _ _ : Search).finished, P x
        split
        · exact ih (hbs b' List.mem_cons_self) hs
        · split <;> exact hs
    exact List.forall_mem_cons.mpr ⟨hb, hfold (c.successors b) (s.start c b) (hP b hb) hs⟩

/-- What holds of the root and is carried from block to block holds of all blocks. -/
theorem mem_blocks {g : Graph} (hP : ∀ b, P b → ∀ b' ∈ g.code.successors b, P b')
    (hroot : P g.root) : ∀ b ∈ g.discover.1.blocks, P b :=
  visit_finished hP hroot (by simp)

end Flowgraph.Graph
