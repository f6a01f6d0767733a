import Flowgraph.Text.Bytes

/-! # Internet addresses

The addresses that can stand for a host: four octets, or eight groups of
hexadecimal digits of which one gap of zeros may be left out and the last two
may be written as octets. A zone may follow the groups. Only the form of an
address matters, so reading one gives its kind or what is wrong with it.
-/

namespace Flowgraph.Editor

open Text (byte hexValue? isDigitByte)

inductive AddressKind
  | octets
  | groups
  deriving DecidableEq, Repr

inductive AddressFault
  | unknownForm
  | onlyZone
  | emptyZone
  | leadingZero
  | largeOctet
  | emptyOctet (rest : List UInt8)
  | tooManyOctets
  | notInOctet (rest : List UInt8)
  | tooFewOctets
  | longGroup (rest : List UInt8)
  | emptyGroup (rest : List UInt8)
  | misplacedOctets (rest : List UInt8)
  | noRoomForOctets (rest : List UInt8)
  | noColon (rest : List UInt8)
  | lastColon (rest : List UInt8)
  | secondGap (rest : List UInt8)
  | garbage (rest : List UInt8)
  | tooFewGroups
  | emptyGap

namespace AddressFault

def text : AddressFault → String
  | unknownForm => "unable to parse IP"
  | onlyZone => "missing IPv6 address"
  | emptyZone => "zone must be a non-empty string"
  | leadingZero => "IPv4 field has octet with leading zero"
  | largeOctet => "IPv4 field has value >255"
  | emptyOctet _ => "IPv4 field must have at least one digit"
  | tooManyOctets => "IPv4 address too long"
  | notInOctet _ => "unexpected character"
  | tooFewOctets => "IPv4 address too short"
  | longGroup _ => "each group must have 4 or fewer digits"
  | emptyGroup _ => "each colon-separated field must have at least one digit"
  | misplacedOctets _ => "embedded IPv4 address must replace the final 2 fields of the address"
  | noRoomForOctets _ =>
    "too many hex fields to fit an embedded IPv4 at the end of the address"
  | noColon _ => "unexpected character, want colon"
  | lastColon _ => "colon must be followed by more characters"
  | secondGap _ => "multiple :: in address"
  | garbage _ => "trailing garbage after address"
  | tooFewGroups => "address string too short"
  | emptyGap => "the :: must expand to at least one field of zeros"

def rest : AddressFault → List UInt8
  | emptyOctet s | notInOctet s | longGroup s | emptyGroup s | misplacedOctets s
  | noRoomForOctets s | noColon s | lastColon s | secondGap s | garbage s => s
  | _ => []

def message (f : AddressFault) (address : List UInt8) : String :=
  "ParseAddr(" ++ Text.quoteBytes address ++ "): " ++ f.text ++
    if f.rest = [] then "" else " (at " ++ Text.quoteBytes f.rest ++ ")"

end AddressFault

/-- Check octets: `points` have been passed, and `digits` of the current octet, which is
`value` so far. -/
def checkOctets : Nat → Nat → Nat → List UInt8 → Except AddressFault Unit
  | points, _, _, [] => if points < 3 then .error .tooFewOctets else .ok ()
  | points, digits, value, b :: bs =>
    if isDigitByte b then
      let value' := value * 10 + (b - byte '0').toNat
      if digits = 1 && value = 0 then .error .leadingZero
      else if 255 < value' then .error .largeOctet
      else checkOctets points (digits + 1) value' bs
    else if b = byte '.' then
      if digits = 0 || bs = [] then .error (.emptyOctet (b :: bs))
      else if points = 3 then .error .tooManyOctets
      else checkOctets (points + 1) 0 0 bs
    else .error (.notInOctet (b :: bs))

def checkEnd (room : Nat) (hasGap : Bool) : Except AddressFault Unit :=
  match room, hasGap with
  | 0, true => .error .emptyGap
  | 0, false => .ok ()
  | _ + 1, true => .ok ()
  | _ + 1, false => .error .tooFewGroups

def checkGroups : Nat → Bool → List UInt8 → Except AddressFault Unit
  | 0, hasGap, s => if s = [] then checkEnd 0 hasGap else .error (.garbage s)
  | room + 1, hasGap, s =>
    let digits := s.takeWhile fun b => (hexValue? b).isSome
    let rest := s.drop digits.length
    if 4 < digits.length then .error (.longGroup s)
    else if digits = [] then .error (.emptyGroup s)
    else match rest with
      | [] => checkEnd room hasGap
      | b :: after =>
        if b = byte '.' then
          if !hasGap && room ≠ 1 then .error (.misplacedOctets s)
          else if room = 0 then .error (.noRoomForOctets s)
          else do
            checkOctets 0 0 0 s
            checkEnd (room - 1) hasGap
        else if b ≠ byte ':' then .error (.noColon rest)
        else match after with
          | [] => .error (.lastColon rest)
          | c :: later =>
            if c ≠ byte ':' then checkGroups room hasGap after
            else if hasGap then .error (.secondGap after)
            else if later = [] then checkEnd room true
            else checkGroups room true later

def checkGrouped (s : List UInt8) : Except AddressFault Unit :=
  match Text.cutAt (byte '%') s with
  | (_, some []) => .error .emptyZone
  | (address, _) =>
    match address with
    | a :: b :: rest =>
      if a = byte ':' && b = byte ':' then
        if rest = [] then .ok () else checkGroups 8 true rest
      else checkGroups 8 false address
    | _ => checkGroups 8 false address

/-- The kind of an address. The first point, colon or percent sign decides. -/
def addressKind (s : List UInt8) : Except AddressFault AddressKind :=
  match s.find? fun b => b = byte '.' || b = byte ':' || b = byte '%' with
  | none => .error .unknownForm
  | some b =>
    if b = byte '.' then (checkOctets 0 0 0 s).map fun _ => .octets
    else if b = byte ':' then (checkGrouped s).map fun _ => .groups
    else .error .onlyZone

end Flowgraph.Editor
