import Flowgraph.Constant.Double
import Flowgraph.Decimal.Shortest
import Flowgraph.Symbols.Basic
import Flowgraph.Text.Quoted

/-! # Constant values

Values carry the number under which a pool holds them. Aggregates hold the
values of the same pool.
-/

namespace Flowgraph.Constant

inductive Value
  | null (id : Nat)
  | bool (id : Nat) (value : Bool)
  | int (id : Nat) (value : Int64)
  | double (id : Nat) (value : Double)
  | string (id : Nat) (value : String)
  | symbol (id : Nat) (name : String)
  | typeOf (id : Nat) (className : String)
  | list (id : Nat) (elements : List Value)
  | map (id : Nat) (keys values : List Value)
  | object (id : Nat) (className : String) (fields : List Value)
  | function (id : Nat) (function : Nat)
  deriving Inhabited

namespace Value

def id : Value → Nat
  | null i | bool i _ | int i _ | double i _ | string i _ | symbol i _ | typeOf i _ | list i _
  | map i _ _ | object i _ _ | function i _ => i

def kind : Value → String
  | null _ => "Null"
  | bool .. => "bool"
  | int .. => "int"
  | double .. => "double"
  | string .. => "String"
  | symbol .. => "Symbol"
  | typeOf .. => "Type"
  | list .. => "List"
  | map .. => "Map"
  | object .. => "Instance"
  | function .. => "Function"

def isNull : Value → Bool
  | null _ => true
  | _ => false

end Value

/-- The text of a double constant, which always shows that it is one. -/
def Double.text (d : Double) : String :=
  match Decimal.Shape.ofBits d.bits.toNat with
  | .nan => "NaN"
  | .infinite negative => if negative then "-Infinity" else "Infinity"
  | _ =>
    let s := Decimal.writeBits d.bits.toNat
    if s.toList.any fun c => c = '.' || c = 'e' then s else s ++ ".0"

def boolText (b : Bool) : String := if b then "true" else "false"

namespace Value

mutual

def render (t : Symbols.Table) : Value → String
  | null _ => "null"
  | bool _ b => boolText b
  | int _ n => toString n.toInt
  | double _ d => Double.text d
  | string _ s => Text.quote s
  | symbol _ name => "#" ++ name
  | typeOf _ className => "type " ++ className
  | function _ f => "&" ++ (t.function f).qualified
  | list _ elements => "const [" ++ String.intercalate ", " (renderAll t elements) ++ "]"
  | map _ keys values =>
    "const \x7b" ++ String.intercalate ", "
      ((renderAll t keys).zipWith (fun k v => k ++ ": " ++ v) (renderAll t values)) ++ "\x7d"
  | object _ className fields =>
    let names := (t.instanceFields className).map fun f => (t.field f).name
    "const " ++ className ++ "\x7b" ++ String.intercalate ", " ((renderAll t fields).mapIdx
      fun i v => (names[i]?).getD (toString i) ++ ": " ++ v) ++ "\x7d"

def renderAll (t : Symbols.Table) : List Value → List String
  | [] => []
  | v :: rest => v.render t :: renderAll t rest

end

def text? : Value → Option String
  | null _ => some "null"
  | bool _ b => some (boolText b)
  | int _ n => some (toString n.toInt)
  | double _ d => some (Double.text d)
  | string _ s => some s
  | _ => none

end Value

end Flowgraph.Constant
