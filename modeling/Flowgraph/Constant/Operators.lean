import Flowgraph.Constant.Value

/-! # Operators on constants

The operator methods of the primitive classes. Integers wrap at 64 bits; a
remainder is never negative; shifts past the width give what repeated shifting
gives.
-/

namespace Flowgraph.Constant

/-- A primitive result, before a pool holds it. -/
inductive Result
  | bool (value : Bool)
  | int (value : Int64)
  | double (value : Double)
  | string (value : String)
  deriving Repr

inductive OperatorError
  | divisionByZero
  | negativeShift
  deriving DecidableEq, Repr

def OperatorError.message : OperatorError → String
  | divisionByZero => "integer division by zero"
  | negativeShift => "negative shift count"

def intMod (a b : Int64) : Int64 :=
  let r := a % b
  if r < 0 then (if b < 0 then r - b else r + b) else r

def shiftLeft (a b : Int64) : Int64 := if b < 64 then a <<< b else 0

def shiftRight (a b : Int64) : Int64 := if b < 64 then a >>> b else if a < 0 then -1 else 0

/-- Two integers. No result means that there is no such operator. -/
def intOp (a : Int64) (name : String) (b : Int64) : Except OperatorError (Option Result) :=
  match name with
  | "+" => .ok (some (.int (a + b)))
  | "-" => .ok (some (.int (a - b)))
  | "*" => .ok (some (.int (a * b)))
  | "/" => .ok (some (.double (Double.div (.ofInt a) (.ofInt b))))
  | "~/" => if b = 0 then .error .divisionByZero else .ok (some (.int (a / b)))
  | "%" => if b = 0 then .error .divisionByZero else .ok (some (.int (intMod a b)))
  | "&" => .ok (some (.int (a &&& b)))
  | "|" => .ok (some (.int (a ||| b)))
  | "^" => .ok (some (.int (a ^^^ b)))
  | "<<" => if b < 0 then .error .negativeShift else .ok (some (.int (shiftLeft a b)))
  | ">>" => if b < 0 then .error .negativeShift else .ok (some (.int (shiftRight a b)))
  | "<" => .ok (some (.bool (a < b)))
  | "<=" => .ok (some (.bool (a ≤ b)))
  | ">" => .ok (some (.bool (b < a)))
  | ">=" => .ok (some (.bool (b ≤ a)))
  | _ => .ok none

def doubleOp (a : Double) (name : String) (b : Double) : Option Result :=
  match name with
  | "+" => some (.double (a.add b))
  | "-" => some (.double (a.sub b))
  | "*" => some (.double (a.mul b))
  | "/" => some (.double (a.div b))
  | "%" => some (.double (a.mod b))
  | "<" => some (.bool (a.lt b))
  | "<=" => some (.bool (a.le b))
  | ">" => some (.bool (b.lt a))
  | ">=" => some (.bool (b.le a))
  | _ => none

def boolOp (a : Bool) (name : String) (b : Bool) : Option Result :=
  match name with
  | "&" => some (.bool (a && b))
  | "|" => some (.bool (a || b))
  | "^" => some (.bool (a != b))
  | _ => none

def unaryOp (receiver : Value) (name : String) : Option Result :=
  match receiver, name with
  | .int _ n, "unary-" => some (.int (-n))
  | .int _ n, "~" => some (.int (~~~n))
  | .double _ d, "unary-" => some (.double d.neg)
  | .int .., "toString" | .double .., "toString" | .bool .., "toString" | .string .., "toString" =>
    receiver.text?.map .string
  | _, _ => none

def binaryOp (receiver : Value) (name : String) (arg : Value) :
    Except OperatorError (Option Result) :=
  match receiver, arg with
  | .int _ a, .int _ b => intOp a name b
  | .int _ a, .double _ b => .ok (doubleOp (.ofInt a) name b)
  | .double _ a, .int _ b => .ok (doubleOp a name (.ofInt b))
  | .double _ a, .double _ b => .ok (doubleOp a name b)
  | .bool _ a, .bool _ b => .ok (boolOp a name b)
  | .string _ a, .string _ b => .ok (if name = "+" then some (.string (a ++ b)) else none)
  | _, _ => .ok none

/-- Numbers compare by value, everything else by identity. -/
def equals : Value → Value → Bool
  | .int _ a, .int _ b => a = b
  | .int _ a, .double _ b => (Double.ofInt a).equals b
  | .double _ a, .int _ b => a.equals (.ofInt b)
  | .double _ a, .double _ b => a.equals b
  | a, b => a.id = b.id

end Flowgraph.Constant
