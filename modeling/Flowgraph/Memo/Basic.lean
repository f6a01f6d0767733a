/-! # Memoization

A slot is computed at most once. Its outcome, value or error, is what every
later request gets. A request for a slot that is being computed fails, and a
computation that is broken off leaves its slot as if it had never been asked.
-/

namespace Flowgraph.Memo

inductive Slot (ε α : Type)
  | idle
  | computing
  | computed (outcome : Except ε α)

/-- How a computation ends. One that is broken off has no outcome. -/
inductive Ending (π ε α : Type)
  | value (a : α)
  | error (e : ε)
  | broken (p : π)
  deriving Repr

variable {κ π ε α σ : Type} [DecidableEq κ]

def Ending.slot : Ending π ε α → Slot ε α
  | .value a => .computed (.ok a)
  | .error e => .computed (.error e)
  | .broken _ => .idle

abbrev Slots (κ ε α : Type) := List (κ × Slot ε α)

namespace Slots

def slot (s : Slots κ ε α) (key : κ) : Slot ε α := ((s.find? (·.1 = key)).map (·.2)).getD .idle

def put (s : Slots κ ε α) (key : κ) (content : Slot ε α) : Slots κ ε α :=
  (key, content) :: s.filter (·.1 ≠ key)

def value? (s : Slots κ ε α) (key : κ) : Option α :=
  match s.slot key with
  | .computed (.ok a) => some a
  | _ => none

@[simp] theorem slot_put_self (s : Slots κ ε α) (key : κ) (content : Slot ε α) :
    (s.put key content).slot key = content := by
  simp [slot, put]

@[simp] theorem slot_put_of_ne (s : Slots κ ε α) {key key' : κ} (content : Slot ε α)
    (h : key' ≠ key) : (s.put key content).slot key' = s.slot key' := by
  have hfind : (s.filter (·.1 ≠ key)).find? (·.1 = key') = s.find? (·.1 = key') := by
    rw [List.find?_filter]
    congr 1
    funext entry
    by_cases he : entry.1 = key' <;> simp [he, h]
  simp only [slot, put, List.find?_cons]
  rw [hfind]
  simp [Ne.symm h]

end Slots

structure Place (σ κ ε α : Type) where
  slots : σ → Slots κ ε α
  update : (Slots κ ε α → Slots κ ε α) → σ → σ

/-- Ask for a slot. A request for one that is being computed goes on with `again`. -/
def memoizeWith {m : Type → Type} [Monad m] [MonadStateOf σ m] (at_ : Place σ κ ε α) (key : κ)
    (again compute : m (Ending π ε α)) : m (Ending π ε α) := do
  match (at_.slots (← get)).slot key with
  | .computed (.ok a) => return .value a
  | .computed (.error e) => return .error e
  | .computing => again
  | .idle =>
    modify (at_.update (·.put key .computing))
    let ending ← compute
    modify (at_.update (·.put key ending.slot))
    return ending

/-- Ask for a slot, with the error for a request that its own computation makes. -/
def memoize (at_ : Place σ κ ε α) (key : κ) (cyclic : ε)
    (compute : StateM σ (Ending π ε α)) : StateM σ (Ending π ε α) :=
  memoizeWith at_ key (return .error cyclic) compute

end Flowgraph.Memo
