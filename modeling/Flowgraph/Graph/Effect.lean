import Flowgraph.Graph.Instruction

/-! # Effects

What an instruction touches besides its own result: the variables of the
function, the heap, or the flow of control.
-/

namespace Flowgraph.Graph

inductive Access
  | read
  | write
  | allocate
  deriving DecidableEq, Repr

def Access.text : Access → String
  | read => "read"
  | write => "write"
  | allocate => "allocate"

inductive Region
  | object (className : String)
  | frame
  | slot (s : Slot)
  | static (field : Nat)
  | array
  deriving DecidableEq, Repr

def Region.text (t : Symbols.Table) : Region → String
  | object className => className
  | frame => "context"
  | slot s => s.text t
  | static field => (t.field field).qualified
  | array => "array"

inductive Callee
  | function (id : Nat)
  | method (name : String)
  | initializer (field : Nat)
  deriving DecidableEq, Repr

def Callee.text (t : Symbols.Table) : Callee → String
  | function id => (t.function id).qualified
  | method name => name
  | initializer field => (t.field field).qualified

inductive Effect
  | pure
  | localVariable (access : Access) (name : String)
  | heap (access : Access) (region : Region)
  | call (callee : Callee)
  /-- Control can leave the block, to a handler if it throws. -/
  | control (throws : Bool)
  deriving DecidableEq, Repr

def Effect.text (t : Symbols.Table) : Effect → String
  | pure => "pure"
  | localVariable access name => "local(" ++ access.text ++ " " ++ name ++ ")"
  | heap access region => "heap(" ++ access.text ++ " " ++ region.text t ++ ")"
  | call callee => "call(" ++ callee.text t ++ ")"
  | control throws => "control(" ++ (if throws then "true" else "false") ++ ")"

namespace Op

def effects : Op → List Effect
  | loadLocal var => [.localVariable .read var.name]
  | storeLocal var _ => [.localVariable .write var.name]
  | allocateObject className => [.heap .allocate (.object className)]
  | allocateContext _ => [.heap .allocate .frame]
  | cloneContext _ => [.heap .read .frame, .heap .allocate .frame]
  | loadField _ slot => [.heap .read (.slot slot)]
  | storeField _ slot _ => [.heap .write (.slot slot)]
  | loadStaticField field => [.heap .read (.static field)]
  | storeStaticField field _ => [.heap .write (.static field)]
  | initStaticField field =>
    [.call (.initializer field), .heap .write (.static field), .control true]
  | staticCall function .. => [.call (.function function), .control true]
  | instanceCall name .. => [.call (.method name), .control true]
  | createArray _ => [.heap .allocate .array]
  | storeIndexed .. => [.heap .write .array]
  | checkStackOverflow _ | throw _ | rethrow .. => [.control true]
  | giveBack _ | goto _ | branch .. => [.control false]
  | entry _ | constant _ | dropTemps .. | pushArgument _ | strictCompare .. | booleanNegate _ =>
    [.pure]

def isPure (op : Op) : Bool := op.effects.all (· = .pure)

def mayThrow (op : Op) : Bool := op.effects.any (· = .control true)

def readsLocal (op : Op) : Bool :=
  op.effects.any fun | .localVariable .read _ => true | _ => false

end Op

end Flowgraph.Graph
