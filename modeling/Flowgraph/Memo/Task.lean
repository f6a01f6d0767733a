import Flowgraph.Memo.Holder
import Flowgraph.Symbols.Name

/-! # Nested requests

Trees of memoized requests made by one holder: the computation of a field runs
the requests nested in it and then ends as its task says.
-/

namespace Flowgraph.Memo

structure RequestError where
  text : String
  isCyclic : Bool := false
  deriving DecidableEq, Repr

inductive Task
  | peek (field : String)
  /-- Ask for a field. The computation runs `nested`, where a strict one stops at
  the first error, and ends with `ending`. -/
  | ask (field : String) (nested : List Task) (isStrict : Bool)
      (ending : Ending String String Int)

instance : Inhabited Task := ⟨.peek ""⟩

def fieldName (field : String) : String :=
  Symbols.qualify (if field.toList.head? = some '_' then some "C" else none) field

def cyclicRequest : CycleError String RequestError where
  error field := ⟨fieldName field ++ ": initializer depends on its own value", true⟩
  isCyclic := RequestError.isCyclic
  isCyclic_error _ := rfl

def finish : Ending String String Int → Ending String RequestError Int
  | .value n => .value n
  | .error text => .error { text }
  | .broken text => .broken text

def failure? : Ending String RequestError Int → Option RequestError
  | .value _ => none
  | .error e => some e
  | .broken text => some { text := "panic " ++ text }

abbrev Requests := Program String String RequestError Int

mutual

def Task.program : Task → (Option RequestError → Requests) → Requests
  | .peek field, next => .peek field fun _ => next none
  | .ask field nested isStrict ending, next =>
    let computation := tasksProgram isStrict nested fun
      | some e => .done (.error e)
      | none => .done (finish ending)
    .ask field computation fun result => next (failure? result)

def tasksProgram (isStrict : Bool) : List Task → (Option RequestError → Requests) → Requests
  | [], next => next none
  | t :: rest, next => t.program fun
    | some e => if isStrict then next (some e) else tasksProgram isStrict rest next
    | none => tasksProgram isStrict rest next

end

inductive Event
  | peeked (field : String) (value : Option Int)
  | asked (field : String) (runs : Nat) (ending : Ending String RequestError Int)

def events : List (Step String String RequestError Int) → List Event
  | [] => []
  | .peeked field value :: earlier => events earlier ++ [.peeked field value]
  | .answered field ending :: earlier =>
    events earlier ++ [.asked field (earlier.countP (·.starts field)) ending]
  | _ :: earlier => events earlier

def trace (tasks : List Task) : List Event :=
  let requests := tasksProgram false tasks fun _ => .done (.value 0)
  events ((requests.run cyclicRequest ()).run.run {}).2.steps

end Flowgraph.Memo
