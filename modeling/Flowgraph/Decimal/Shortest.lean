/-! # Shortest decimals

The fewest decimal digits that read back as a given binary number. A finite
double is `mantissa * 2 ^ exponent`; the reals that round to it form an
interval, and the grids of one, two, … digits are searched for a point in it.
-/

namespace Flowgraph.Decimal

structure Binary where
  mantissa : Nat
  exponent : Int
  /-- The gap to the next smaller number is half the gap to the next larger one. -/
  narrowBelow : Bool
  deriving DecidableEq, Repr

structure Digits where
  digits : Nat
  exponent : Int
  deriving DecidableEq, Repr

namespace Binary

/-- The value, and half the gaps below and above it, over one denominator. -/
structure Scaled where
  value : Nat
  below : Nat
  above : Nat
  unit : Nat

def scaled (b : Binary) : Scaled :=
  let up := if 0 ≤ b.exponent then Nat.pow 2 b.exponent.toNat else 1
  let down := if 0 ≤ b.exponent then 1 else Nat.pow 2 (-b.exponent).toNat
  { value := 4 * b.mantissa * up
    below := (if b.narrowBelow then 1 else 2) * up
    above := 2 * up
    unit := 4 * down }

end Binary

namespace Digits

def scale (d : Digits) : Nat × Nat :=
  if 0 ≤ d.exponent then (d.digits * Nat.pow 10 d.exponent.toNat, 1)
  else (d.digits, Nat.pow 10 (-d.exponent).toNat)

/-- Whether the decimal rounds to the binary number. The ends of the interval
belong to it when the mantissa is even. -/
def roundsTo (d : Digits) (b : Binary) : Bool :=
  let (num, den) := d.scale
  let s := b.scaled
  let x := num * s.unit
  let lo := (s.value - s.below) * den
  let hi := (s.value + s.above) * den
  if b.mantissa % 2 = 0 then decide (lo ≤ x) && decide (x ≤ hi)
  else decide (lo < x) && decide (x < hi)

def trim : Nat → Digits → Digits
  | 0, d => d
  | fuel + 1, d =>
    if d.digits % 10 = 0 ∧ d.digits ≠ 0 then trim fuel ⟨d.digits / 10, d.exponent + 1⟩ else d

end Digits

def countDigits : Nat → Nat → Nat
  | 0, _ => 0
  | fuel + 1, n => if n < 10 then 1 else countDigits fuel (n / 10) + 1

namespace Binary

/-- The least `k` with `value < 10 ^ k`. -/
def magnitude (b : Binary) : Int :=
  let s := b.scaled
  let whole := s.value / s.unit
  if 0 < whole then countDigits (Nat.log2 whole + 1) whole
  else
    let inverse := (s.unit - 1) / s.value
    1 - (countDigits (Nat.log2 inverse + 1) inverse : Nat)

/-- The two points of the grid with step `10 ^ exponent` around the value, the
nearer one first. Of two equally near ones the even one comes first. -/
def neighbours (b : Binary) (exponent : Int) : List Digits :=
  let s := b.scaled
  let num := if 0 ≤ exponent then s.value else s.value * Nat.pow 10 (-exponent).toNat
  let den := if 0 ≤ exponent then s.unit * Nat.pow 10 exponent.toNat else s.unit
  let low := num / den
  let twice := 2 * (num % den)
  let down : Digits := ⟨low, exponent⟩
  let up : Digits := ⟨low + 1, exponent⟩
  if twice < den ∨ (twice = den ∧ low % 2 = 0) then [down, up] else [up, down]

def search (b : Binary) (top : Int) : Nat → Nat → Digits
  | 0, count => ((b.neighbours (top - count)).head?).getD ⟨0, 0⟩
  | fuel + 1, count =>
    match (b.neighbours (top - count)).find? (·.roundsTo b) with
    | some d => d
    | none => b.search top fuel (count + 1)

def shortest (b : Binary) : Digits :=
  (b.search b.magnitude 17 1).trim 20

end Binary

inductive Shape
  | nan
  | infinite (negative : Bool)
  | zero (negative : Bool)
  | finite (negative : Bool) (magnitude : Binary)
  deriving Repr

def Shape.ofBits (bits : Nat) : Shape :=
  let negative := decide (Nat.pow 2 63 ≤ bits)
  let exponent : Nat := bits / Nat.pow 2 52 % Nat.pow 2 11
  let fraction : Nat := bits % Nat.pow 2 52
  if exponent = 2047 then (if fraction = 0 then .infinite negative else .nan)
  else if exponent = 0 then
    if fraction = 0 then .zero negative else .finite negative ⟨fraction, -1074, false⟩
  else .finite negative
    ⟨Nat.pow 2 52 + fraction, (exponent : Int) - 1075, decide (fraction = 0 ∧ 1 < exponent)⟩

/-- How the digits of a double are laid out: positional notation for exponents
from `least` up to, and without, `limit`, and powers of ten beyond. -/
structure Layout where
  least : Int
  limit : Int
  exponentWidth : Nat

def Layout.general : Layout := ⟨-4, 6, 2⟩

def padLeft (width : Nat) (s : String) : String :=
  String.ofList (List.replicate (width - s.length) '0') ++ s

namespace Layout

def withExponent (l : Layout) (digits : List Char) (e : Int) : String :=
  let lead := digits.take 1
  let tail := digits.drop 1
  let fraction := if tail.isEmpty then [] else '.' :: tail
  let sign := if e < 0 then "-" else "+"
  String.ofList (lead ++ fraction) ++ "e" ++ sign ++ padLeft l.exponentWidth (toString e.natAbs)

def positional (digits : List Char) (e : Int) : String :=
  if e < 0 then
    "0." ++ String.ofList (List.replicate (-e - 1).toNat '0' ++ digits)
  else
    let whole := e.toNat + 1
    let padded := digits ++ List.replicate (whole - digits.length) '0'
    let fraction := padded.drop whole
    String.ofList (padded.take whole ++ if fraction.isEmpty then [] else '.' :: fraction)

def write (l : Layout) (d : Digits) : String :=
  let digits := (toString d.digits).toList
  let e := d.exponent + digits.length - 1
  if e < l.least ∨ l.limit ≤ e then l.withExponent digits e else positional digits e

end Layout

def sign (negative : Bool) : String := if negative then "-" else ""

/-- The text of a double with the fewest digits that read back. -/
def writeBits (bits : Nat) : String :=
  match Shape.ofBits bits with
  | .nan => "NaN"
  | .infinite negative => if negative then "-Inf" else "+Inf"
  | .zero negative => sign negative ++ "0"
  | .finite negative b => sign negative ++ Layout.general.write b.shortest

def write (f : Float) : String := writeBits f.toBits.toNat

end Flowgraph.Decimal
