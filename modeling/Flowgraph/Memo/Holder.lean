import Flowgraph.Memo.Basic

/-! # Holders

A holder computes fields, one inside the other, and owns each field while it computes it. A
request for a field that is being computed waits for it, unless that closes a circle of holders
that wait for each other. Then it fails.
-/

namespace Flowgraph.Memo

/-- Who computes each field, and for which field each holder waits. -/
structure Waits (κ η : Type) where
  owner : List (κ × η) := []
  waitOn : List (η × κ) := []

variable {κ η π ε α : Type} [DecidableEq κ] [DecidableEq η]

namespace Waits

def owner? (w : Waits κ η) (key : κ) : Option η := (w.owner.find? (·.1 = key)).map (·.2)

def waitOn? (w : Waits κ η) (holder : η) : Option κ :=
  (w.waitOn.find? (·.1 = holder)).map (·.2)

def disown (w : Waits κ η) (key : κ) : Waits κ η :=
  { w with owner := w.owner.filter (·.1 ≠ key) }

def own (w : Waits κ η) (key : κ) (holder : η) : Waits κ η :=
  { w with owner := (key, holder) :: (w.disown key).owner }

/-- The holders that a wait for a field comes to, each of which waits for a field of the next.
The bound is on their number. -/
def chain (w : Waits κ η) : Nat → κ → List η
  | 0, _ => []
  | n + 1, key =>
    match w.owner? key with
    | none => []
    | some holder =>
      match w.waitOn? holder with
      | none => [holder]
      | some next => holder :: w.chain n next

/-- Let a holder wait for a field, unless it comes to wait for itself. -/
def blockOn (w : Waits κ η) (holder : η) (key : κ) : Option (Waits κ η) :=
  if holder ∈ w.chain w.owner.length key then none
  else some { w with waitOn := (holder, key) :: w.waitOn.filter (·.1 ≠ holder) }

end Waits

/-- The error of a request for a field that is being computed, and the errors that tell of one. -/
structure CycleError (κ ε : Type) where
  error : κ → ε
  isCyclic : ε → Bool
  isCyclic_error : ∀ key, isCyclic (error key) = true

inductive Step (κ π ε α : Type)
  | peeked (key : κ) (value : Option α)
  | asked (key : κ)
  | started (key : κ)
  | ended (key : κ) (ending : Ending π ε α)
  | answered (key : κ) (ending : Ending π ε α)

def Step.starts (key : κ) : Step κ π ε α → Bool
  | .started k => k = key
  | _ => false

structure Ledger (κ η π ε α : Type) where
  slots : Slots κ ε α := []
  waits : Waits κ η := {}
  steps : List (Step κ π ε α) := []

def Ledger.place : Place (Ledger κ η π ε α) κ ε α :=
  { slots := Ledger.slots, update := fun f s => { s with slots := f s.slots } }

/-- What a holder does. It comes to no result if it waits, since no other holder goes on. -/
abbrev HolderM (κ η π ε α : Type) := OptionT (StateM (Ledger κ η π ε α))

def note (step : Step κ π ε α) : HolderM κ η π ε α Unit :=
  modify fun s => { s with steps := step :: s.steps }

def wait (c : CycleError κ ε) (holder : η) (key : κ) : HolderM κ η π ε α (Ending π ε α) := do
  match (← get).waits.blockOn holder key with
  | none => return .error (c.error key)
  | some waits =>
    modify fun s => { s with waits }
    failure

/-- Ask for a field. The holder owns it while it computes it. -/
def request (c : CycleError κ ε) (holder : η) (key : κ)
    (compute : HolderM κ η π ε α (Ending π ε α)) : HolderM κ η π ε α (Ending π ε α) :=
  memoizeWith (Ledger.place : Place (Ledger κ η π ε α) κ ε α) key (wait c holder key) do
    modify fun s => { s with waits := s.waits.own key holder }
    let ending ← compute
    modify fun s => { s with waits := s.waits.disown key }
    return ending

/-- A computation that asks for fields, looks at them and goes on with what it gets. A request
whose computation is broken off need not break it off. -/
inductive Program (κ π ε α : Type)
  | done (ending : Ending π ε α)
  | peek (key : κ) (next : Option α → Program κ π ε α)
  | ask (key : κ) (computation : Program κ π ε α) (next : Ending π ε α → Program κ π ε α)

def Program.run (c : CycleError κ ε) (holder : η) :
    Program κ π ε α → HolderM κ η π ε α (Ending π ε α)
  | .done ending => return ending
  | .peek key next => do
    let value := (← get).slots.value? key
    note (.peeked key value)
    (next value).run c holder
  | .ask key computation next => do
    note (.asked key)
    let ending ← request c holder key do
      note (.started key)
      let ending ← computation.run c holder
      note (.ended key ending)
      return ending
    note (.answered key ending)
    (next ending).run c holder

end Flowgraph.Memo
