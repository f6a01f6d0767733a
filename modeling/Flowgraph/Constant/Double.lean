/-! # Doubles by bit pattern

Doubles are told apart by their bits, so zeros of either sign and NaNs of
different origin are different. An operation without a result gives one fixed
NaN, and a NaN operand is passed on.
-/

namespace Flowgraph

structure Double where
  bits : UInt64
  deriving DecidableEq, Repr, Inhabited

namespace Double

def signBit : UInt64 := 0x8000000000000000

def invalid : Double := ⟨0xFFF8000000000000⟩

def noRemainder : Double := ⟨0x7FF8000000000001⟩

def toFloat (d : Double) : Float := Float.ofBits d.bits

def ofFloat (f : Float) : Double := if f.isNaN then invalid else ⟨f.toBits⟩

def ofInt (n : Int64) : Double := ofFloat n.toFloat

def isNaN (d : Double) : Bool := d.toFloat.isNaN

def isNegative (d : Double) : Bool := d.bits &&& signBit ≠ 0

def neg (d : Double) : Double := ⟨d.bits ^^^ signBit⟩

def abs (d : Double) : Double := ⟨d.bits &&& (signBit - 1)⟩

def lift (op : Float → Float → Float) (a b : Double) : Double :=
  if a.isNaN then a else if b.isNaN then b else ofFloat (op a.toFloat b.toFloat)

def add : Double → Double → Double := lift (· + ·)

def sub : Double → Double → Double := lift (· - ·)

def mul : Double → Double → Double := lift (· * ·)

def div : Double → Double → Double := lift (· / ·)

def lt (a b : Double) : Bool := a.toFloat < b.toFloat

def le (a b : Double) : Bool := a.toFloat ≤ b.toFloat

/-- Equality of numbers: zeros are equal, and a NaN differs from itself. -/
def equals (a b : Double) : Bool := a.toFloat == b.toFloat

/-- A finite magnitude as a whole number of smallest units. -/
def units (d : Double) : Nat :=
  let magnitude := d.abs.bits.toNat
  let exponent := magnitude / Nat.pow 2 52
  let fraction := magnitude % Nat.pow 2 52
  if exponent = 0 then fraction else (fraction + Nat.pow 2 52) * Nat.pow 2 (exponent - 1)

/-- The magnitude of so many smallest units, of which at most 53 bits matter. -/
def ofUnits (n : Nat) : Double :=
  let exponent := n.log2 - 52
  let fraction := n / Nat.pow 2 exponent
  if n < Nat.pow 2 52 then ⟨UInt64.ofNat n⟩
  else ⟨UInt64.ofNat ((exponent + 1) * Nat.pow 2 52 + (fraction - Nat.pow 2 52))⟩

/-- The exact remainder of a division that rounds towards zero. It has the sign
of the dividend. -/
def truncatedRemainder (a b : Double) : Double :=
  if a.isNaN || b.isNaN || a.toFloat.isInf || b.units = 0 then noRemainder
  else if b.toFloat.isInf then a
  else
    let r := ofUnits (a.units % b.units)
    if a.isNegative then r.neg else r

def mod (a b : Double) : Double :=
  let r := truncatedRemainder a b
  if r.lt ⟨0⟩ then r.add b.abs else r

end Double

end Flowgraph
