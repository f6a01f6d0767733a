import Flowgraph.Text.Bytes

/-! # Base 64

Four characters stand for three bytes. The last four may end with one or two
equals signs that stand for none. Ends of lines are passed over.
-/

namespace Flowgraph.Text

def base64Digit? (c : Char) : Option Nat :=
  if 'A' ≤ c && c ≤ 'Z' then some (c.toNat - 'A'.toNat)
  else if 'a' ≤ c && c ≤ 'z' then some (c.toNat - 'a'.toNat + 26)
  else if c.isDigit then some (c.toNat - '0'.toNat + 52)
  else if c = '+' then some 62
  else if c = '/' then some 63
  else none

def leadingBytes (count n : Nat) : List UInt8 :=
  [(n / 65536).toUInt8, (n / 256).toUInt8, n.toUInt8].take count

def base64Groups : List Char → Option (List UInt8)
  | [] => some []
  | [a, b, '=', '='] => do
    return leadingBytes 1 ((← base64Digit? a) * 262144 + (← base64Digit? b) * 4096)
  | [a, b, c, '='] => do
    return leadingBytes 2
      ((← base64Digit? a) * 262144 + (← base64Digit? b) * 4096 + (← base64Digit? c) * 64)
  | a :: b :: c :: d :: rest => do
    let n := (← base64Digit? a) * 262144 + (← base64Digit? b) * 4096 + (← base64Digit? c) * 64 +
      (← base64Digit? d)
    return leadingBytes 3 n ++ (← base64Groups rest)
  | _ => none

def decodeBase64 (s : String) : Option (List UInt8) :=
  base64Groups (s.toList.filter fun c => c ≠ '\n' && c ≠ '\r')

end Flowgraph.Text
