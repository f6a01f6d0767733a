import Flowgraph.Graph.Fragment
import Flowgraph.Graph.Effect
import Mathlib.Data.List.Nodup
import Mathlib.Data.List.Pairwise
import Mathlib.Data.List.ReduceOption
import Mathlib.Data.Nat.Basic
import Mathlib.Order.Basic

/-! # Growing code

What emitting, naming and linking instructions do to code, and what the
instructions of some code have together.
-/

namespace Flowgraph.Graph

/-- The blocks that an instruction names. -/
def Op.targets : Op → List Nat
  | .entry { kind := .graph normal handlers _, .. } => normal.toList ++ handlers
  | .goto target => [target]
  | .branch _ _ _ yes no => [yes, no]
  | _ => []

def Op.isJoin : Op → Bool
  | .entry { kind := .join, .. } => true
  | _ => false

def Op.isTarget : Op → Bool
  | .entry { kind := .target, .. } => true
  | _ => false

def Op.isHandler : Op → Bool
  | .entry { kind := .handler .., .. } => true
  | _ => false

/-- Whether the instruction starts a whole graph. -/
def Op.isRoot : Op → Bool
  | .entry { kind := .graph .., .. } => true
  | _ => false

/-- The two blocks behind a branch. -/
def Op.sides : Op → List Nat
  | .branch _ _ _ yes no => [yes, no]
  | _ => []

/-- Whether the instruction runs code outside the function. -/
def Op.calls (op : Op) : Bool := op.effects.any fun | .call _ => true | _ => false

/-- The values that an instruction uses. -/
def Op.used (op : Op) : List Nat := op.inputs.reduceOption

/-- The id of the block that an instruction starts. -/
def Op.blockId (op : Op) : List Int := (op.asEntry.map (·.block)).toList

namespace Code

variable {c : Code} {x : Instruction} {i j k : Nat}

theorem get_push (c : Code) (x : Instruction) (i : Nat) :
    Code.get (c.push x) i = if i = c.size then x else c.get i := by
  unfold Code.get
  simp only [Array.getD_eq_getD_getElem?, Array.getElem?_push]
  split <;> rfl

@[simp] theorem get_push_size : Code.get (c.push x) c.size = x := by simp [get_push]

theorem get_push_of_lt (h : i < c.size) : Code.get (c.push x) i = c.get i := by
  rw [get_push, if_neg (Nat.ne_of_lt h)]

@[simp] theorem op_push_size : Code.op (c.push x) c.size = x.op := by simp [Code.op]

theorem op_push_of_lt (h : i < c.size) : Code.op (c.push x) i = c.op i := by
  simp [Code.op, get_push_of_lt h]

theorem get_of_le (h : c.size ≤ i) : c.get i = default := by
  simp [Code.get, Array.getElem?_eq_none h]

theorem op_of_le (h : c.size ≤ i) : c.op i = .entry { kind := .join, block := 0 } := by
  rw [Code.op, get_of_le h]
  rfl

theorem lt_of_next (h : (c.get i).next = some j) : i < c.size := by
  by_contra hi
  rw [get_of_le (Nat.le_of_not_lt hi)] at h
  cases h

theorem setTemp_push (c : Code) (x : Instruction) (temp : Nat) :
    Code.setTemp (c.push x) c.size temp = c.push { x with temp } := by
  unfold Code.setTemp
  apply Array.ext
  · simp
  · intro i h1 h2
    rw [Array.getElem_modify]
    simp only [Array.getElem_push]
    grind

@[simp] theorem size_link : (c.link i j).size = c.size := by simp [link]

theorem get_link (c : Code) (i j k : Nat) (hi : i < c.size) (hj : j < c.size) :
    (c.link i j).get k =
      { c.get k with
        next := if k = i then some j else (c.get k).next
        previous := if k = j then some i else (c.get k).previous } := by
  unfold link Code.get
  simp only [Array.getD_eq_getD_getElem?, Array.getElem?_modify]
  by_cases hk : k < c.size
  · rw [Array.getElem?_eq_getElem hk]
    by_cases hik : i = k <;> by_cases hjk : j = k <;> simp [hik, hjk, eq_comm]
  · have hik : k ≠ i := by omega
    have hjk : k ≠ j := by omega
    simp [Array.getElem?_eq_none (Nat.le_of_not_lt hk), hik, hjk, hik.symm, hjk.symm]

@[simp] theorem op_link (hi : i < c.size) (hj : j < c.size) : (c.link i j).op k = c.op k := by
  simp [Code.op, get_link c i j k hi hj]

/-! ## What all instructions have -/

/-- What the instructions have, in order. -/
def collect {α : Type} (c : Code) (f : Op → List α) : List α :=
  (List.range c.size).flatMap fun i => f (c.op i)

section Collect

variable {α : Type} {f : Op → List α} {a : α}

theorem mem_collect : a ∈ c.collect f ↔ ∃ i < c.size, a ∈ f (c.op i) := by simp [collect]

theorem collect_push : collect (c.push x) f = c.collect f ++ f x.op := by
  unfold collect
  rw [Array.size_push, List.range_succ, List.flatMap_append, List.flatMap_singleton, op_push_size]
  congr 1
  exact List.flatMap_congr fun i hi => by rw [op_push_of_lt (List.mem_range.mp hi)]

theorem collect_link (hi : i < c.size) (hj : j < c.size) :
    (c.link i j).collect f = c.collect f := by
  simp only [collect, size_link, op_link hi hj]

theorem eq_of_mem_collect (h : (c.collect f).Nodup) (hi : i < c.size) (hj : j < c.size)
    (hfi : a ∈ f (c.op i)) (hfj : a ∈ f (c.op j)) : i = j := by
  by_contra hne
  have : Std.Symm (Function.onFun List.Disjoint fun k => f (c.op k)) := ⟨fun _ _ h _ ha hb => h hb ha⟩
  have hdisjoint := (List.nodup_flatMap.mp h).2.forall (List.mem_range.mpr hi)
    (List.mem_range.mpr hj) hne
  exact hdisjoint hfi hfj

end Collect

end Code

end Flowgraph.Graph
