import Flowgraph.Graph.Fragment

/-! # Sources

Which code was made from what. Statements are put together from parts that are made
in another order than they run, so this cannot be read off the code.
-/

namespace Flowgraph.Graph

open Scoping (Variable)
open Flowgraph.Tree (Expr SwitchCase)

structure CaseLayout where
  source : SwitchCase
  body : Fragment
  join : Option Nat

structure SwitchLayout where
  subject : Expr
  code : Fragment
  value : Use
  holder : Variable
  cases : List CaseLayout
  whole : Fragment
  /-- The instructions of the switch are those from `first` on and before `past`. -/
  first : Nat
  past : Nat

/-- What control does when it gets to a place. -/
inductive Event
  | evaluate (e : Expr)
  | declare (d : Tree.Declaration)
  | test (condition : Expr) (outcome : Bool)
  | update (e : Expr)
  | giveBack (value : Option Expr)

structure Sources where
  /-- The first instruction of what an event stands for. Behind a test, it is the first
  instruction of the side that the outcome leads to. -/
  events : List (Option Nat × Event) := []
  switches : List SwitchLayout := []
  continues : List (Option Nat × Nat) := []

end Flowgraph.Graph
