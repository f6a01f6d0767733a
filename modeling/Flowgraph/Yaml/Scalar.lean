import Flowgraph.Yaml.Timestamp
import Flowgraph.Yaml.Problem

/-! # What scalars stand for

A plain scalar may be a number, a truth value, a time or nothing at all. The
first character decides what it can be. A written tag of one of these kinds has to
agree with the text.
-/

namespace Flowgraph.Yaml

inductive Scalar
  | null
  | bool (value : Bool)
  | int (value : Int)
  | float (value : Float)
  | timestamp
  | string

namespace Tag

def null : String := "!!null"

def bool : String := "!!bool"

def int : String := "!!int"

def float : String := "!!float"

def timestamp : String := "!!timestamp"

def string : String := "!!str"

def binary : String := "!!binary"

def merge : String := "!!merge"

def sequence : String := "!!seq"

def mapping : String := "!!map"

def standard : String := "tag:yaml.org,2002:"

def shorten (tag : String) : String :=
  if standard.toList.isPrefixOf tag.toList then
    "!!" ++ String.ofList (tag.toList.drop standard.length)
  else tag

end Tag

namespace Scalar

def tag : Scalar → String
  | null => Tag.null
  | bool _ => Tag.bool
  | int _ => Tag.int
  | float _ => Tag.float
  | timestamp => Tag.timestamp
  | string => Tag.string

/-! ## Numbers -/

/-- A signed integer fits 64 bits with its sign, an unsigned one without. -/
def readInt (cs : List Char) : Option Int :=
  match cs with
  | '-' :: ds => (Decimal.readUnsigned ds).toOption.bind fun n =>
      if n ≤ Nat.pow 2 63 then some (-(n : Int)) else none
  | '+' :: ds => (Decimal.readUnsigned ds).toOption.bind fun n =>
      if n < Nat.pow 2 63 then some n else none
  | ds => (Decimal.readUnsigned ds).toOption.map Int.ofNat

def readBased (base : Nat) (cs : List Char) : Option Int :=
  let digits (ds : List Char) : Option Nat :=
    if ds = [] then none else (Decimal.readDigits base ds 0).toOption
  match cs with
  | '-' :: ds => (digits ds).bind fun n => if n ≤ Nat.pow 2 63 then some (-(n : Int)) else none
  | '+' :: ds => (digits ds).bind fun n => if n < Nat.pow 2 63 then some n else none
  | ds => (digits ds).map Int.ofNat

def readSignedLate : List Char → Option Int
  | '0' :: 'b' :: ds => readBased 2 ds
  | '0' :: 'o' :: ds => readBased 8 ds
  | _ => none

def isPower (cs : List Char) : Bool :=
  let isMark (e : Char) (ds : List Char) : Bool :=
    (e = 'e' || e = 'E') && !ds.isEmpty && ds.all Char.isDigit
  match cs with
  | [] => true
  | e :: '-' :: ds | e :: '+' :: ds => isMark e ds
  | e :: ds => isMark e ds

def isFraction (cs : List Char) : Bool :=
  let whole := cs.takeWhile Char.isDigit
  let rest := cs.dropWhile Char.isDigit
  match rest with
  | '.' :: ds =>
    (!whole.isEmpty || ds.head?.any Char.isDigit) && isPower (ds.dropWhile Char.isDigit)
  | ds => !whole.isEmpty && isPower ds

def readFloat (cs : List Char) : Option Float :=
  let magnitude (cs : List Char) : Option Float :=
    if isFraction cs then
      let cs := if cs.contains '.' then cs else
        cs.takeWhile Char.isDigit ++ ['.', '0'] ++ cs.dropWhile Char.isDigit
      (Decimal.readFraction (String.ofList cs)).toOption
    else none
  match cs with
  | '-' :: cs => (magnitude cs).map (- ·)
  | '+' :: cs => magnitude cs
  | cs => magnitude cs

def dropSeparators : List Char → Bool → Option (List Char)
  | [], _ => some []
  | '_' :: c :: cs, true =>
    if c.isDigit then (dropSeparators cs true).map (c :: ·) else none
  | '_' :: _, _ => none
  | c :: cs, _ => (dropSeparators cs c.isDigit).map (c :: ·)

def ofNumber (text : String) : Scalar :=
  let cs := text.toList.filter (· ≠ '_')
  match readInt cs, readFloat cs, readSignedLate cs with
  | some n, _, _ => int n
  | none, some f, _ => float f
  | none, none, some n => int n
  | none, none, none => string

/-! ## Words -/

def infinity : Float := 1.0 / 0.0

def ofWord? (text : String) : Option Scalar :=
  match text with
  | "" | "~" | "null" | "Null" | "NULL" => some null
  | "true" | "True" | "TRUE" => some (bool true)
  | "false" | "False" | "FALSE" => some (bool false)
  | ".nan" | ".NaN" | ".NAN" => some (float (0.0 / 0.0))
  | ".inf" | ".Inf" | ".INF" | "+.inf" | "+.Inf" | "+.INF" => some (float infinity)
  | "-.inf" | "-.Inf" | "-.INF" => some (float (-infinity))
  | _ => none

/-- What a text stands for. Times are read only where they can be meant. -/
def ofText (mayBeTime : Bool) (text : String) : Scalar :=
  match ofWord? text, text.toList with
  | some s, _ => s
  | none, c :: cs =>
    if c = '.' then
      match (dropSeparators (c :: cs) false).bind readFloat with
      | some f => float f
      | none => string
    else if c.isDigit || c = '+' || c = '-' then
      if mayBeTime && Timestamp.isTimestamp text then timestamp else ofNumber text
    else string
  | none, [] => string

def ofPlain (text : String) : Scalar := ofText true text

def checkedTags : List String := [Tag.null, Tag.bool, Tag.int, Tag.float, Tag.timestamp]

/-- What a scalar with a tag stands for. A whole number is also a fraction, and with a
tag that is not checked every text stands for itself. -/
def ofTagged (tag text : String) : Except Problem Scalar :=
  if !checkedTags.contains tag then .ok string
  else
    let s := ofText (tag = Tag.timestamp) text
    match s, decide (tag = Tag.float) with
    | int n, true =>
      if n < (Nat.pow 2 63 : Nat) then .ok (float (Float.ofInt n))
      else .error (.wrongTag s.tag text tag)
    | _, _ => if tag = s.tag then .ok s else .error (.wrongTag s.tag text tag)

end Scalar

end Flowgraph.Yaml
