import Flowgraph.Scoping.Analyze
import Flowgraph.Constant.Evaluate

/-! # Default values

The analysis of a function asks for the constants of its optional parameters.
They are folded in the order in which they were met, and a default that fails is
reported before anything that the analysis met later.
-/

namespace Flowgraph.Scoping

open Constant (EvalM Value)

def DefaultRequest.fold (r : DefaultRequest) : EvalM (Nat × Value) := do
  match r.value with
  | none => return (r.layout, ← Constant.intern .null)
  | some e => return (r.layout, ← Constant.fold e)

def Analysis.addDefault (a : Analysis) (layout : Nat) (v : Value) : Analysis :=
  { a with layouts := a.layouts.modify layout fun l => { l with defaults := l.defaults ++ [v] } }

def Outcome.withDefaults (o : Outcome) : EvalM Analysis := do
  let values ← o.requests.mapM DefaultRequest.fold
  match o.result with
  | .error f => throw (.failed f)
  | .ok a => return values.foldl (fun a (layout, v) => a.addDefault layout v) a

end Flowgraph.Scoping
