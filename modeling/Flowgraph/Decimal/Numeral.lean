/-! # Reading numerals

Integer numerals in base ten, two, eight or sixteen and decimal fractions with an
optional power of ten, with the two ways in which a numeral can be refused.
-/

namespace Flowgraph.Decimal

inductive NumeralError
  | malformed
  | outOfRange
  deriving DecidableEq, Repr

def NumeralError.message : NumeralError → String
  | malformed => "invalid syntax"
  | outOfRange => "value out of range"

def digitValue (c : Char) : Nat :=
  if c.isDigit then c.toNat - 48
  else if 'a' ≤ c ∧ c ≤ 'z' then c.toNat - 87
  else if 'A' ≤ c ∧ c ≤ 'Z' then c.toNat - 55
  else 36

/-- Digits are read from the left. The first one that is no digit of the base,
or that carries the value past 64 bits, is the error. -/
def readDigits (base : Nat) : List Char → Nat → Except NumeralError Nat
  | [], n => .ok n
  | c :: cs, n =>
    if base ≤ digitValue c then .error .malformed
    else
      let n := n * base + digitValue c
      if Nat.pow 2 64 ≤ n then .error .outOfRange else readDigits base cs n

def baseOf : Char → Option Nat
  | 'x' | 'X' => some 16
  | 'o' | 'O' => some 8
  | 'b' | 'B' => some 2
  | _ => none

/-- A numeral that starts with `0` may have a letter for its base, and is octal
otherwise. -/
def readUnsigned : List Char → Except NumeralError Nat
  | [] => .error .malformed
  | ['0'] => .ok 0
  | '0' :: c :: cs =>
    match baseOf c with
    | some base => if cs.isEmpty then .error .malformed else readDigits base cs 0
    | none => readDigits 8 (c :: cs) 0
  | cs => readDigits 10 cs 0

def fitsInt64 (n : Int) : Bool := -(Nat.pow 2 63 : Nat) ≤ n && n < (Nat.pow 2 63 : Nat)

/-- The value of an integer literal, which has to fit 64 signed bits. -/
def readInteger (s : String) : Except NumeralError Int64 :=
  match readUnsigned s.toList with
  | .error e => .error e
  | .ok n => if n < Nat.pow 2 63 then .ok (Int64.ofNat n) else .error .outOfRange

def naturalOf (cs : List Char) : Nat :=
  cs.foldl (fun n c => n * 10 + digitValue c) 0

/-- The parts of a decimal fraction: all digits as one number and the power of
ten that scales it. -/
def splitFraction (s : String) : Nat × Int :=
  let cs := s.toList
  let whole := cs.takeWhile Char.isDigit
  let rest := (cs.dropWhile Char.isDigit).drop 1
  let fraction := rest.takeWhile Char.isDigit
  let tail := (rest.dropWhile Char.isDigit).drop 1
  let power : Int := match tail with
    | '-' :: ds => -(naturalOf ds : Int)
    | '+' :: ds => naturalOf ds
    | ds => naturalOf ds
  (naturalOf (whole ++ fraction), power - fraction.length)

/-- The double nearest to a decimal fraction. A value past the largest double is refused. -/
def readFraction (s : String) : Except NumeralError Float :=
  let (digits, power) := splitFraction s
  let size := (toString digits).length
  if digits = 0 then .ok 0.0
  else if 310 < power + size then .error .outOfRange
  else if power + size < -330 then .ok 0.0
  else
    let f := Float.ofScientific digits (decide (power < 0)) power.natAbs
    if f.isInf then .error .outOfRange else .ok f

end Flowgraph.Decimal
