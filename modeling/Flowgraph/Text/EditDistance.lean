/-! # Edit distance

The number of single insertions, deletions and substitutions that turn one
sequence into another, computed row by row, and the choice of names close to a
misspelt one. Names are compared by the bytes of their encoding.
-/

namespace Flowgraph.Text

section

variable {α : Type} [BEq α]

/-- The cells of one row from the second on. `diag` and `left` are the cells
diagonally before and directly before the next one. -/
def rowFrom (x : α) : Nat → Nat → List α → List Nat → List Nat
  | diag, left, y :: ys, up :: above =>
    let cell := min (min (up + 1) (left + 1)) (diag + if x == y then 0 else 1)
    cell :: rowFrom x up cell ys above
  | _, _, _, _ => []

def nextRow (x : α) (ys : List α) (above : List Nat) : List Nat :=
  match above with
  | [] => []
  | first :: rest => (first + 1) :: rowFrom x first (first + 1) ys rest

def distance (xs ys : List α) : Nat :=
  (xs.foldl (fun row x => nextRow x ys row) (List.range (ys.length + 1))).getLastD 0

end

def nameDistance (a b : String) : Nat :=
  distance a.toUTF8.toList b.toUTF8.toList

/-- The candidates longer than two bytes, other than the name itself, that at
most two edits separate from it, in the order given. -/
def similarNames (target : String) (candidates : List String) : List String :=
  candidates.filter fun c =>
    c != target && decide (2 < c.utf8ByteSize) && decide (nameDistance target c ≤ 2)

end Flowgraph.Text
