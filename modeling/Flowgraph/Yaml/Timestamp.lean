import Flowgraph.Decimal.Numeral

/-! # Timestamps

A date, or a date and a time of day. After `T` or `t` the time has a zone,
after spaces it has none.
-/

namespace Flowgraph.Yaml.Timestamp

def isLeap (year : Nat) : Bool := year % 4 = 0 && (year % 100 ≠ 0 || year % 400 = 0)

def daysIn (year month : Nat) : Nat :=
  if month = 2 then (if isLeap year then 29 else 28)
  else if month = 4 || month = 6 || month = 9 || month = 11 then 30
  else 31

def small : List Char → Option (Nat × List Char)
  | a :: b :: rest =>
    if !a.isDigit then none
    else if b.isDigit then some (Decimal.naturalOf [a, b], rest)
    else some (Decimal.naturalOf [a], b :: rest)
  | [a] => if a.isDigit then some (Decimal.naturalOf [a], []) else none
  | [] => none

def expect (c : Char) : List Char → Option (List Char)
  | [] => none
  | d :: rest => if c = d then some rest else none

def date (cs : List Char) : Option (List Char) := do
  let year := cs.takeWhile Char.isDigit
  if year.length ≠ 4 then none
  let (month, rest) ← small (← expect '-' (cs.drop 4))
  let (day, rest) ← small (← expect '-' rest)
  if 1 ≤ month && month ≤ 12 && 1 ≤ day && day ≤ daysIn (Decimal.naturalOf year) month then
    return rest
  else none

def fraction : List Char → List Char
  | c :: d :: rest =>
    if (c = '.' || c = ',') && d.isDigit then rest.dropWhile Char.isDigit else c :: d :: rest
  | cs => cs

def clock (cs : List Char) : Option (List Char) := do
  let (hour, rest) ← small cs
  let (minute, rest) ← small (← expect ':' rest)
  let (second, rest) ← small (← expect ':' rest)
  if hour < 24 && minute < 60 && second < 60 then return fraction rest else none

def isZone : List Char → Bool
  | ['Z'] => true
  | [sign, h, h', ':', m, m'] =>
    (sign = '+' || sign = '-') && [h, h', m, m'].all Char.isDigit &&
      Decimal.naturalOf [h, h'] ≤ 24 && Decimal.naturalOf [m, m'] ≤ 60
  | _ => false

def isTimestamp (text : String) : Bool :=
  match date text.toList with
  | none => false
  | some [] => true
  | some (c :: rest) =>
    if c = 'T' || c = 't' then (clock rest).any isZone
    else if c = ' ' then clock (rest.dropWhile (· = ' ')) = some []
    else false

end Flowgraph.Yaml.Timestamp
