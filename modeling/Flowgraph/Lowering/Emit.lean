import Flowgraph.Lowering.State

/-! # Emitting instructions

Each function takes its operands from the expression stack and leaves its value
there, if it has one.
-/

namespace Flowgraph.Lowering

open Flowgraph.Graph (Comparison Fragment Origin Slot)
open Scoping (Variable)

def constant (v : Constant.Value) : LowerM Fragment := define (.constant v)

def newConstant (make : Nat → Constant.Value) : LowerM Fragment := do
  constant (← evaluating (Constant.intern make))

def nullConstant : LowerM Fragment := newConstant .null

def intConstant (n : Nat) : LowerM Fragment := newConstant (.int · (Int64.ofNat n))

def boolConstant (b : Bool) : LowerM Fragment := newConstant (.bool · b)

def foldedConstant (e : Tree.Expr) : LowerM Fragment := do
  constant (← evaluating (Constant.fold e))

def typeConstant (className : String) : LowerM Fragment := do
  let c ← query (·.resolveClass className)
  newConstant (.typeOf · c.name)

def loadLocal (v : Variable) : LowerM Fragment := define (.loadLocal v)

def storeLocal (v : Variable) : LowerM Fragment := do
  let value ← popUse
  define (.storeLocal v value)

def allocateObject (className : String) : LowerM Fragment := define (.allocateObject className)

def loadField (slot : Slot) (origin : Option Origin := none) : LowerM Fragment := do
  let object ← popUse
  define (.loadField object slot) origin

/-- The value is on top of the object. -/
def storeField (slot : Slot) (origin : Option Origin := none) : LowerM Fragment := do
  let value ← popUse
  let object ← popUse
  perform (.storeField object slot value) origin

def storeStaticField (field : Nat) : LowerM Fragment := do
  let value ← popUse
  perform (.storeStaticField field value)

def staticCall (function count : Nat) (names : List String) : LowerM Fragment := do
  let arguments ← takeArguments count
  define (.staticCall function arguments names)

def instanceCall (name : String) (count : Nat) (names : List String) : LowerM Fragment := do
  let arguments ← takeArguments count
  define (.instanceCall name arguments names)

def comparison (negated : Bool) : Comparison := if negated then .different else .same

def strictCompare (negated : Bool) : LowerM Fragment := do
  let right ← popUse
  let left ← popUse
  define (.strictCompare (comparison negated) left right)

def booleanNegate : LowerM Fragment := do
  let value ← popUse
  define (.booleanNegate value)

def createArray : LowerM Fragment := do
  let length ← popUse
  define (.createArray length)

/-- The value is on top of the index, which is on top of the array. -/
def storeIndexed : LowerM Fragment := do
  let value ← popUse
  let index ← popUse
  let array ← popUse
  perform (.storeIndexed array index value)

def checkStackOverflow : LowerM Fragment := do
  if (← read).settings.stackChecks then perform (.checkStackOverflow (← get).depths.loop)
  else return .empty

def giveBack : LowerM Fragment := do
  let value ← popUse
  return (← perform (.giveBack value)).closed

/-- The throw stands on the stack for the value of the expression it ends. -/
def throwException : LowerM Fragment := do
  let exception ← popUse
  return (← define (.throw exception)).closed

def rethrowException (tryIndex : Int) : LowerM Fragment := do
  let stackTrace ← popUse
  let exception ← popUse
  return (← define (.rethrow exception stackTrace tryIndex)).closed

def gotoJoin (target : Nat) (origin : Option Origin := none) : LowerM Fragment := do
  return (← perform (.goto target) origin).closed

/-! ## Branches -/

structure Branching where
  code : Fragment
  yes : Nat
  no : Nat

def branchIfSame (negated : Bool) : LowerM Branching := do
  let right ← popUse
  let left ← popUse
  let yes ← makeTarget
  let no ← makeTarget
  let code ← perform (.branch (comparison negated) left right yes no)
  return ⟨code.closed, yes, no⟩

def branchOn (test : LowerM Fragment) (negated : Bool) : LowerM Branching := do
  let f ← test
  let b ← branchIfSame negated
  return { b with code := ← append f b.code }

def branchIfTrue (negated : Bool) : LowerM Branching := branchOn (boolConstant true) negated

def branchIfNull : LowerM Branching := branchOn nullConstant false

def startingAt (entry : Nat) (pieces : List (LowerM Fragment)) : LowerM Fragment :=
  chain (.single entry) pieces

end Flowgraph.Lowering
