import Flowgraph.Text.Quoted
import Flowgraph.Text.Utf8

/-! # Bytes

Texts that need not be valid UTF-8, as the bytes they consist of.
-/

namespace Flowgraph.Text

def byte (c : Char) : UInt8 := c.toNat.toUInt8

def bytes (s : String) : List UInt8 := s.toUTF8.toList

def isDigitByte (b : UInt8) : Bool := byte '0' ≤ b && b ≤ byte '9'

def isAlphanumByte (b : UInt8) : Bool :=
  isDigitByte b || (byte 'a' ≤ b && b ≤ byte 'z') || (byte 'A' ≤ b && b ≤ byte 'Z')

def hexValue? (b : UInt8) : Option UInt8 :=
  if isDigitByte b then some (b - byte '0')
  else if byte 'a' ≤ b && b ≤ byte 'f' then some (b - byte 'a' + 10)
  else if byte 'A' ≤ b && b ≤ byte 'F' then some (b - byte 'A' + 10)
  else none

/-- Bytes between quotes. Those that are no text are written as numbers. -/
def quoteBytes (bs : List UInt8) : String :=
  let rec written : Nat → List UInt8 → List Char
    | 0, _ => []
    | _ + 1, [] => []
    | limit + 1, b :: bs =>
      let (c, size) := firstChar (b :: bs)
      if c = replacement && size = 1 then
        '\\' :: 'x' :: hexDigits 2 b.toNat ++ written limit bs
      else escape c ++ written limit ((b :: bs).drop size)
  "\"" ++ String.ofList (written bs.length bs) ++ "\""

def cutAt (b : UInt8) (bs : List UInt8) : List UInt8 × Option (List UInt8) :=
  match bs.dropWhile (· ≠ b) with
  | [] => (bs, none)
  | _ :: rest => (bs.takeWhile (· ≠ b), some rest)

def cutAtLast (b : UInt8) (bs : List UInt8) : Option (List UInt8 × List UInt8) :=
  if bs.contains b then
    let after := (bs.reverse.takeWhile (· ≠ b)).reverse
    some (bs.take (bs.length - after.length - 1), after)
  else none

end Flowgraph.Text
