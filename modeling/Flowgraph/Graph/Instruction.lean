import Flowgraph.Scoping.Basic

/-! # Instructions

The operations of a lowered function. A block starts with an entry, which is an
instruction too, and ends with a terminator. Instructions refer to each other by
number.
-/

namespace Flowgraph.Graph

open Scoping (Variable)

/-- A use of a value, given by the instruction that defines it. -/
abbrev Use := Option Nat

def noTry : Int := -1

inductive Comparison
  | same
  | different
  deriving DecidableEq, Repr

def Comparison.text : Comparison → String
  | same => "==="
  | different => "!=="

/-- What a field access reads or writes: a declared field, or a part of a capture
frame or closure. -/
inductive Slot
  | field (id : Nat)
  | frameParent
  | frameVariable (index : Nat)
  | closureFunction
  | closureFrame
  deriving DecidableEq, Repr

def Slot.text (t : Symbols.Table) : Slot → String
  | field id => (t.field id).qualified
  | frameParent => "Context.parent"
  | frameVariable i => "Context[" ++ toString i ++ "]"
  | closureFunction => "Closure.function"
  | closureFrame => "Closure.context"

inductive BlockKind
  /-- The root. Its successors are the start of the function and every handler. -/
  | graph (normal : Option Nat) (handlers : List Nat) (defaults : List Constant.Value)
  | function
  | target
  | join
  /-- Entered when an exception is thrown where `handles` is the try index. No
  guards mean that every exception is handled. -/
  | handler (handles : Int) (guards : List String) (exception stackTrace : Option Variable)

structure Entry where
  kind : BlockKind
  block : Int
  tryIndex : Int := noTry

inductive Op
  | entry (e : Entry)
  | constant (value : Constant.Value)
  | loadLocal (var : Variable)
  /-- The value of a store is the stored value. -/
  | storeLocal (var : Variable) (value : Use)
  | dropTemps (count : Nat) (dropped : List Use)
  | pushArgument (value : Use)
  | allocateObject (className : String)
  | allocateContext (slots : Nat)
  /-- Copies a frame, so that the next iteration has captures of its own. -/
  | cloneContext (frame : Use)
  | loadField (object : Use) (slot : Slot)
  | storeField (object : Use) (slot : Slot) (value : Use)
  | loadStaticField (field : Nat)
  | storeStaticField (field : Nat) (value : Use)
  | initStaticField (field : Nat)
  | staticCall (function : Nat) (arguments : List Use) (names : List String)
  | instanceCall (name : String) (arguments : List Use) (names : List String)
  | strictCompare (test : Comparison) (left right : Use)
  | booleanNegate (value : Use)
  | createArray (length : Use)
  | storeIndexed (array index value : Use)
  | checkStackOverflow (loopDepth : Int)
  | giveBack (value : Use)
  | throw (exception : Use)
  | rethrow (exception stackTrace : Use) (tryIndex : Int)
  | goto (target : Nat)
  | branch (test : Comparison) (left right : Use) (yes no : Nat)

inductive Origin
  | scope (node : Nat)
  | variable (v : Variable)
  | continueTo (node : Nat)

namespace BlockKind

def name : BlockKind → String
  | graph .. => "GraphEntry"
  | function => "FunctionEntry"
  | target => "TargetEntry"
  | join => "JoinEntry"
  | handler .. => "CatchBlockEntry"

def word : BlockKind → String
  | graph .. => "graph"
  | function => "function"
  | target => "target"
  | join => "join"
  | handler .. => "catch"

end BlockKind

namespace Op

def name : Op → String
  | entry e => e.kind.name
  | constant _ => "Constant"
  | loadLocal _ => "LoadLocal"
  | storeLocal .. => "StoreLocal"
  | dropTemps .. => "DropTemps"
  | pushArgument _ => "PushArgument"
  | allocateObject _ => "AllocateObject"
  | allocateContext _ => "AllocateContext"
  | cloneContext _ => "CloneContext"
  | loadField .. => "LoadField"
  | storeField .. => "StoreField"
  | loadStaticField _ => "LoadStaticField"
  | storeStaticField .. => "StoreStaticField"
  | initStaticField _ => "InitStaticField"
  | staticCall .. => "StaticCall"
  | instanceCall .. => "InstanceCall"
  | strictCompare .. => "StrictCompare"
  | booleanNegate _ => "BooleanNegate"
  | createArray _ => "CreateArray"
  | storeIndexed .. => "StoreIndexed"
  | checkStackOverflow _ => "CheckStackOverflow"
  | giveBack _ => "Return"
  | throw _ => "Throw"
  | rethrow .. => "ReThrow"
  | goto _ => "Goto"
  | branch .. => "Branch"

def inputs : Op → List Use
  | entry _ | constant _ | loadLocal _ | allocateObject _ | allocateContext _ | loadStaticField _
  | initStaticField _ | checkStackOverflow _ | goto _ => []
  | storeLocal _ v | pushArgument v | cloneContext v | loadField v _ | storeStaticField _ v
  | booleanNegate v | createArray v | giveBack v | throw v => [v]
  | dropTemps _ vs | staticCall _ vs _ | instanceCall _ vs _ => vs
  | storeField object _ value => [object, value]
  | strictCompare _ left right | branch _ left right _ _ => [left, right]
  | storeIndexed array index value => [array, index, value]
  | rethrow exception stackTrace _ => [exception, stackTrace]

def isDefinition : Op → Bool
  | constant _ | loadLocal _ | storeLocal .. | pushArgument _ | allocateObject _
  | allocateContext _ | cloneContext _ | loadField .. | loadStaticField _ | staticCall ..
  | instanceCall .. | strictCompare .. | booleanNegate _ | createArray _ => true
  | _ => false

def isTerminator : Op → Bool
  | goto _ | branch .. | giveBack _ | throw _ | rethrow .. => true
  | _ => false

def asEntry : Op → Option Entry
  | entry e => some e
  | _ => none

end Op

end Flowgraph.Graph
