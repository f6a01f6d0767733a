import Flowgraph.Text.EditDistance
import Mathlib.Order.Bounds.Basic
import Mathlib.Order.Lattice.Nat

/-! # The edit distance counts edits

The cells of a row are the distances of one beginning of the first sequence from all
beginnings of the second one. Distances of beginnings follow the recursion from the end, and
the least number of edits is the same from either end.
-/

namespace Flowgraph.Text

section

variable {α : Type} {xs ys zs us vs : List α} {m n : Nat}

/-- One element is inserted, deleted or replaced by another one. -/
inductive Edit : List α → List α → Prop
  | insert (xs : List α) (y : α) (zs : List α) : Edit (xs ++ zs) (xs ++ y :: zs)
  | delete (xs : List α) (y : α) (zs : List α) : Edit (xs ++ y :: zs) (xs ++ zs)
  | substitute (xs : List α) (y z : α) (zs : List α) : Edit (xs ++ y :: zs) (xs ++ z :: zs)

/-- `n` edits turn the first sequence into the second one. -/
inductive Edits : Nat → List α → List α → Prop
  | refl (xs : List α) : Edits 0 xs xs
  | head {n : Nat} {xs ys zs : List α} : Edit xs ys → Edits n ys zs → Edits (n + 1) xs zs

theorem Edit.cons (x : α) (h : Edit xs ys) : Edit (x :: xs) (x :: ys) := by
  cases h with
  | insert xs y zs => exact .insert (x :: xs) y zs
  | delete xs y zs => exact .delete (x :: xs) y zs
  | substitute xs y z zs => exact .substitute (x :: xs) y z zs

theorem Edit.reverse (h : Edit xs ys) : Edit xs.reverse ys.reverse := by
  cases h with
  | insert xs y zs => simpa using Edit.insert zs.reverse y xs.reverse
  | delete xs y zs => simpa using Edit.delete zs.reverse y xs.reverse
  | substitute xs y z zs => simpa using Edit.substitute zs.reverse y z xs.reverse

theorem Edits.cons (x : α) (h : Edits n xs ys) : Edits n (x :: xs) (x :: ys) := by
  induction h with
  | refl => exact .refl _
  | head h _ ih => exact .head (h.cons x) ih

theorem Edits.reverse (h : Edits n xs ys) : Edits n xs.reverse ys.reverse := by
  induction h with
  | refl => exact .refl _
  | head h _ ih => exact .head h.reverse ih

variable [BEq α]

/-- The least number of edits, by what becomes of the first elements. -/
def minEdits : List α → List α → Nat
  | [], ys => ys.length
  | _ :: xs, [] => xs.length + 1
  | x :: xs, y :: ys =>
    min (min (minEdits xs (y :: ys) + 1) (minEdits (x :: xs) ys + 1))
      (minEdits xs ys + if x == y then 0 else 1)

@[simp] theorem minEdits_nil (xs : List α) : minEdits xs [] = xs.length := by
  cases xs <;> simp [minEdits]

/-! ## Rows -/

/-- The distances of `us` from `vs` with more and more of `ys` put in front. -/
def cells (us : List α) : List α → List α → List Nat
  | _, [] => []
  | vs, y :: ys => minEdits us (y :: vs) :: cells us (y :: vs) ys

theorem cells_nil (vs ys : List α) : cells [] vs ys = List.range' (vs.length + 1) ys.length := by
  induction ys generalizing vs with
  | nil => rfl
  | cons y ys ih => simp [cells, minEdits, ih, List.range'_succ]

theorem rowFrom_cells (x : α) (us vs ys : List α) :
    rowFrom x (minEdits us vs) (minEdits (x :: us) vs) ys (cells us vs ys) =
      cells (x :: us) vs ys := by
  induction ys generalizing vs with
  | nil => rfl
  | cons y ys ih =>
    have hcell : min (min (minEdits us (y :: vs) + 1) (minEdits (x :: us) vs + 1))
        (minEdits us vs + if x == y then 0 else 1) = minEdits (x :: us) (y :: vs) := by
      rw [minEdits]
    simp only [cells, rowFrom]
    rw [hcell, ih]

theorem nextRow_cells (x : α) (us ys : List α) :
    nextRow x ys (minEdits us [] :: cells us [] ys) =
      minEdits (x :: us) [] :: cells (x :: us) [] ys := by
  have hrow := rowFrom_cells x us [] ys
  simp only [minEdits_nil, List.length_cons] at hrow ⊢
  simp only [nextRow, hrow]

theorem foldl_nextRow (xs us ys : List α) :
    xs.foldl (fun row x => nextRow x ys row) (minEdits us [] :: cells us [] ys) =
      minEdits (xs.reverse ++ us) [] :: cells (xs.reverse ++ us) [] ys := by
  induction xs generalizing us with
  | nil => rfl
  | cons x xs ih => rw [List.foldl_cons, nextRow_cells, ih]; simp

theorem getLastD_cells (us vs ys : List α) :
    (minEdits us vs :: cells us vs ys).getLastD 0 = minEdits us (ys.reverse ++ vs) := by
  induction ys generalizing vs with
  | nil => rfl
  | cons y ys ih => simpa [cells] using ih (y :: vs)

theorem distance_eq (xs ys : List α) : distance xs ys = minEdits xs.reverse ys.reverse := by
  have hfirst : List.range (ys.length + 1) = minEdits ([] : List α) [] :: cells [] [] ys := by
    rw [cells_nil, List.range_eq_range', List.range'_succ, minEdits_nil]
    rfl
  rw [distance, hfirst, foldl_nextRow, getLastD_cells]
  simp

/-! ## The least number of edits -/

theorem minEdits_cons_le (x : α) (xs ys : List α) : minEdits (x :: xs) ys ≤ minEdits xs ys + 1 := by
  cases ys with
  | nil => simp
  | cons y ys => rw [minEdits]; omega

theorem le_minEdits_cons (x : α) (xs ys : List α) : minEdits xs ys ≤ minEdits (x :: xs) ys + 1 := by
  induction ys with
  | nil => simp; omega
  | cons y ys ih =>
    have hskip : minEdits xs (y :: ys) ≤ minEdits xs ys + 1 := by
      cases xs with
      | nil => simp [minEdits]
      | cons x xs => rw [minEdits]; omega
    rw [minEdits]
    omega

theorem minEdits_substitute (x y : α) (xs zs : List α) :
    minEdits (x :: xs) zs ≤ minEdits (y :: xs) zs + 1 := by
  induction zs with
  | nil => simp
  | cons z zs ih =>
    rw [minEdits, minEdits]
    split <;> split <;> omega

/-- Equal first elements keep a bound. -/
theorem minEdits_append (us : List α) (h : ∀ zs, minEdits xs zs ≤ minEdits ys zs + 1) (zs : List α) :
    minEdits (us ++ xs) zs ≤ minEdits (us ++ ys) zs + 1 := by
  induction us generalizing zs with
  | nil => exact h zs
  | cons u us ih =>
    induction zs with
    | nil => simpa using ih []
    | cons z zs ih' =>
      have hboth := ih zs
      have hdelete := ih (z :: zs)
      simp only [List.cons_append, minEdits] at ih' ⊢
      omega

theorem minEdits_edit (h : Edit xs ys) (zs : List α) : minEdits xs zs ≤ minEdits ys zs + 1 := by
  cases h with
  | insert us y vs => exact minEdits_append us (le_minEdits_cons y vs) zs
  | delete us y vs => exact minEdits_append us (minEdits_cons_le y vs) zs
  | substitute us y z vs => exact minEdits_append us (minEdits_substitute y z vs) zs

variable [LawfulBEq α]

@[simp] theorem minEdits_self (xs : List α) : minEdits xs xs = 0 := by
  induction xs with
  | nil => simp
  | cons x xs ih => simp [minEdits, ih]

theorem minEdits_le (h : Edits n xs ys) : minEdits xs ys ≤ n := by
  induction h with
  | refl => simp
  | @head n xs ys zs h _ ih => exact (minEdits_edit h zs).trans (Nat.succ_le_succ ih)

theorem edits_minEdits (xs ys : List α) : Edits (minEdits xs ys) xs ys := by
  induction xs generalizing ys with
  | nil =>
    induction ys with
    | nil => simpa using Edits.refl []
    | cons y ys ih => simpa [minEdits] using Edits.head (.insert [] y []) (ih.cons y)
  | cons x xs ih =>
    induction ys with
    | nil => simpa using Edits.head (.delete [] x xs) (ih [])
    | cons y ys ih' =>
      -- The recursion takes the least of three ways, each of which is a way of editing.
      have hdelete : Edits (minEdits xs (y :: ys) + 1) (x :: xs) (y :: ys) :=
        .head (.delete [] x xs) (ih (y :: ys))
      have hinsert : Edits (minEdits (x :: xs) ys + 1) (x :: xs) (y :: ys) :=
        .head (.insert [] y (x :: xs)) (ih'.cons y)
      have hboth : Edits (minEdits xs ys + if x == y then 0 else 1) (x :: xs) (y :: ys) := by
        by_cases hxy : x = y
        · subst hxy
          simpa using (ih ys).cons x
        · simpa [hxy] using Edits.head (.substitute [] x y xs) ((ih ys).cons y)
      rw [minEdits]
      rcases min_choice (min (minEdits xs (y :: ys) + 1) (minEdits (x :: xs) ys + 1))
        (minEdits xs ys + if x == y then 0 else 1) with h | h
      · rw [h]
        rcases min_choice (minEdits xs (y :: ys) + 1) (minEdits (x :: xs) ys + 1) with h | h
        · rwa [h]
        · rwa [h]
      · rwa [h]

theorem isLeast_minEdits (xs ys : List α) : IsLeast {n | Edits n xs ys} (minEdits xs ys) :=
  ⟨edits_minEdits xs ys, fun _ h => minEdits_le h⟩

theorem minEdits_reverse (xs ys : List α) : minEdits xs.reverse ys.reverse = minEdits xs ys := by
  apply Nat.le_antisymm
  · exact minEdits_le (edits_minEdits xs ys).reverse
  · exact minEdits_le (by simpa using (edits_minEdits xs.reverse ys.reverse).reverse)

end

/-- The distance that the rows give is the recursive one, the least number of edits. The names
chosen are therefore those that at most two edits make out of the target. -/
theorem similarNames_least_edits :
    (∀ a b : List UInt8, distance a b = minEdits a b ∧ IsLeast {n | Edits n a b} (distance a b)) ∧
      ∀ target candidates, ∃ chosen : String → Bool,
        similarNames target candidates = candidates.filter chosen ∧
          ∀ c, chosen c = true ↔ c ≠ target ∧ 2 < c.utf8ByteSize ∧
            ∃ n ≤ 2, Edits n target.toUTF8.toList c.toUTF8.toList := by
  have hdistance : ∀ a b : List UInt8, distance a b = minEdits a b := fun a b => by
    rw [distance_eq, minEdits_reverse]
  refine ⟨fun a b => ⟨hdistance a b, hdistance a b ▸ isLeast_minEdits a b⟩,
    fun target candidates => ⟨_, rfl, fun c => ?_⟩⟩
  have hclose : (∃ n ≤ 2, Edits n target.toUTF8.toList c.toUTF8.toList) ↔ nameDistance target c ≤ 2 := by
    rw [nameDistance, hdistance]
    constructor
    · rintro ⟨n, hn, h⟩
      exact (minEdits_le h).trans hn
    · exact fun h => ⟨_, h, edits_minEdits _ _⟩
  rw [hclose]
  simp [and_assoc]

end Flowgraph.Text
