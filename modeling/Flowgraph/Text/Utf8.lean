/-! # Reading UTF-8

Bytes as text. A byte that belongs to no character becomes the replacement
character.
-/

namespace Flowgraph.Text

def replacement : Char := '�'

def scalar? (least n : Nat) : Option Char :=
  if least ≤ n && n.isValidChar then some (Char.ofNat n) else none

def continuation? (b : UInt8) : Option Nat :=
  if 0x80 ≤ b && b < 0xc0 then some (b.toNat - 0x80) else none

def combine : Nat → List UInt8 → Option Nat
  | n, [] => some n
  | n, b :: bs => (continuation? b).bind fun k => combine (n * 64 + k) bs

def sized? (size lead least : Nat) (bs : List UInt8) : Option (Char × Nat) :=
  match bs.take size with
  | b :: tail =>
    if tail.length + 1 = size && lead ≤ b.toNat then
      (combine (b.toNat - lead) tail).bind fun n => (scalar? least n).map fun c => (c, size)
    else none
  | [] => none

def firstChar (bs : List UInt8) : Char × Nat :=
  match bs with
  | [] => (replacement, 1)
  | b :: _ =>
    if b < 0x80 then (Char.ofNat b.toNat, 1)
    else
      let wide := if b < 0xe0 then sized? 2 0xc0 0x80 bs
        else if b < 0xf0 then sized? 3 0xe0 0x800 bs
        else sized? 4 0xf0 0x10000 bs
      wide.getD (replacement, 1)

def decodeFrom : Nat → List UInt8 → List Char
  | 0, _ => []
  | _ + 1, [] => []
  | limit + 1, bs =>
    let (c, size) := firstChar bs
    c :: decodeFrom limit (bs.drop size)

def decodeUtf8 (bs : List UInt8) : String := String.ofList (decodeFrom bs.length bs)

def takeBytes (n : Nat) (s : String) : String := decodeUtf8 (s.toUTF8.toList.take n)

end Flowgraph.Text
