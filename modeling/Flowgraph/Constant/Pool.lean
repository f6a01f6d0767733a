import Flowgraph.Constant.Value

/-! # The constant pool

Equal constants are held once. Each is filed under a text, which gives the
numbers of the parts of an aggregate, the bits of a double and the handle of a
function.
-/

namespace Flowgraph.Constant

/-- What tells a constant from all others of its pool. -/
inductive Key
  | null
  | bool (value : Bool)
  | int (value : Int64)
  | double (value : Double)
  | string (value : String)
  | symbol (name : String)
  | typeOf (className : String)
  | list (elements : List Nat)
  | map (keys values : List Nat)
  | object (className : String) (fields : List Nat)
  | function (function : Nat)
  deriving DecidableEq, Repr

def Value.key : Value → Key
  | null _ => .null
  | bool _ b => .bool b
  | int _ n => .int n
  | double _ d => .double d
  | string _ s => .string s
  | symbol _ name => .symbol name
  | typeOf _ className => .typeOf className
  | list _ elements => .list (elements.map id)
  | map _ keys values => .map (keys.map id) (values.map id)
  | object _ className fields => .object className (fields.map id)
  | function _ f => .function f

def numbersText (numbers : List Nat) : String :=
  String.intercalate "," (numbers.map Nat.repr)

/-- The text under which a constant is filed: the mark of its kind and what tells it
from others of its kind. -/
def Key.text : Key → String
  | null => "n"
  | bool b => "b:" ++ boolText b
  | int n => "i:" ++ n.toInt.repr
  | double d => "d:" ++ String.ofList (Nat.toDigits 16 d.bits.toNat)
  | string s => "s:" ++ Text.quote s
  | symbol name => "y:" ++ name
  | typeOf className => "t:" ++ className
  | list elements => "l:" ++ numbersText elements
  | map keys values => "m:" ++ numbersText keys ++ "|" ++ numbersText values
  | object className fields => "o:" ++ className ++ ":" ++ numbersText fields
  | function f => "f:" ++ f.repr

/-- The values in order of first use, numbered from one. -/
structure Pool where
  values : List Value := []

namespace Pool

def size (p : Pool) : Nat := p.values.length

/-- The value that `make` builds, under the number of an equal one or a new number. -/
def intern (p : Pool) (make : Nat → Value) : Value × Pool :=
  let fresh := make (p.size + 1)
  let text := fresh.key.text
  match p.values.find? (·.key.text = text) with
  | some v => (v, p)
  | none => (fresh, ⟨p.values ++ [fresh]⟩)

end Pool

end Flowgraph.Constant
