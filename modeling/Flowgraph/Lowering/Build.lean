import Flowgraph.Lowering.Function

/-! # Building graphs

Lowers one function of a program into a graph, on top of what the functions
before it left in the store.
-/

namespace Flowgraph.Lowering

open Constant (EvalM Stop Store)
open Flowgraph.Graph (BlockKind Fragment)

def startCode (firstBlock : Int) : Graph.Code :=
  #[{ op := .entry { kind := .graph (some 1) [] [], block := firstBlock } },
    { op := .entry { kind := .function, block := firstBlock + 1 } }]

def startState (settings : Settings) (store : Store) (place : Position) : State :=
  { store, place, code := startCode settings.firstBlock, nextBlock := settings.firstBlock + 2 }

def functionBody (info : Symbols.FunctionInfo) (code : LowerM Fragment) : LowerM Unit := do
  let body ← code
  if body.isOpen then
    malformed (functionPlace info)
      ("body of '" ++ info.qualified ++ "' does not end in a return")
  let left := (← get).stack.length
  if left ≠ 0 then
    malformed (functionPlace info) (toString left ++ " values left on the expression stack")
  let _ ← append (.single 1) body

def State.graph (s : State) (function : Nat) (defaults : List Constant.Value) : Graph :=
  let root (x : Graph.Instruction) : Graph.Instruction := match x.op with
    | .entry e => { x with op := .entry { e with kind := .graph (some 1) s.handlers defaults } }
    | _ => x
  { function := some function, code := s.code.modify 0 root, closures := s.closures,
    maxBlock := s.nextBlock - 1, tryCount := s.nextTry, sources := s.sources }

/-- Charge a failure to a function. A failure that a constant field remembers is
charged wherever it is remembered. -/
def charge (s : Store) (f : Failure) (function : String) : Failure × Store :=
  let again (slot : Memo.Slot Failure Constant.Value) := match slot with
    | .computed (.error e) =>
      if f.origin.isSome && e.origin = f.origin then .computed (.error (e.charge function))
      else slot
    | _ => slot
  (f.charge function, { s with slots := s.slots.map fun (key, slot) => (key, again slot) })

def Plan.graph (p : Plan) (settings : Settings) (id : Nat) : EvalM Graph := fun s =>
  let info := s.table.function id
  let env : Env :=
    { settings, function := id, analysis := p.analysis, layout := p.layout, this := p.this }
  let start := startState settings s (functionPlace info)
  match ((functionBody info p.code).run env).run start with
  | (.error stop, s) => (.error stop, s.store)
  | (.ok _, s) =>
    match (s.graph id p.defaults).discover with
    | (g, none) => (.ok g, s.store)
    | (_, some defect) =>
      (.error (.failed (.of .malformed (functionPlace info) defect.message)), s.store)

def build (settings : Settings) (id : Nat) : EvalM Graph := do
  let t := (← get).table
  try
    let p ← plan t id
    p.graph settings id
  catch
    | .failed f =>
      let f ← modifyGet fun s => charge s f (t.function id).qualified
      throw (.failed f)
    | stop => throw stop

end Flowgraph.Lowering
