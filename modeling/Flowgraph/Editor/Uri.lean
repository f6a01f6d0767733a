import Flowgraph.Editor.Address
import Flowgraph.Files

/-! # Document URIs

Editors name documents by URIs. Only the path matters: scheme, host, query and
fragment are checked and dropped, and escaped bytes are read.
-/

namespace Flowgraph.Editor

open Text (byte hexValue? isDigitByte isAlphanumByte quoteBytes cutAt cutAtLast)

inductive UriError
  | controlCharacter
  | missingScheme
  | colonInSegment
  | badEscape (bytes : List UInt8)
  | badHostCharacter (b : UInt8)
  | badPort (text : List UInt8)
  | openBracket
  | badUser
  | badLiteral
  | badAddress (fault : AddressFault) (address : List UInt8)

def UriError.message : UriError → String
  | controlCharacter => "net/url: invalid control character in URL"
  | missingScheme => "missing protocol scheme"
  | colonInSegment => "first path segment in URL cannot contain colon"
  | badEscape bytes => "invalid URL escape " ++ quoteBytes bytes
  | badHostCharacter b => "invalid character " ++ quoteBytes [b] ++ " in host name"
  | badPort text => "invalid port " ++ quoteBytes text ++ " after host"
  | openBracket => "missing ']' in host"
  | badUser => "net/url: invalid userinfo"
  | badLiteral => "invalid IP-literal"
  | badAddress fault address => "invalid host: " ++ fault.message address

/-! ## Escapes -/

/-- The parts of a URI differ in what may be escaped and what has to be. -/
inductive UriPart
  | path
  | host
  | zone
  deriving DecidableEq

def isHostByte (b : UInt8) : Bool :=
  isAlphanumByte b || (Text.bytes "!$&'()*+,;=:[]<>\"-_.~").contains b

/-- Whether an escape may stand for a byte. In hosts only bytes outside ASCII and percent
signs are escaped; in zones also spaces and what needs no escape. -/
def UriPart.admitsEscape (part : UriPart) (b : UInt8) : Bool :=
  match part with
  | path => true
  | host => 0x80 ≤ b || b = byte '%'
  | zone => b = byte '%' || b = byte ' ' || isHostByte b

def UriPart.admits (part : UriPart) (b : UInt8) : Bool :=
  part = path || 0x80 ≤ b || isHostByte b

def unescape (part : UriPart) : List UInt8 → Except UriError (List UInt8)
  | [] => .ok []
  | b :: rest =>
    if b = byte '%' then
      match rest with
      | high :: low :: rest => match hexValue? high, hexValue? low with
        | some h, some l =>
          if part.admitsEscape (h * 16 + l) then do
            return (h * 16 + l) :: (← unescape part rest)
          else .error (.badEscape [b, high, low])
        | _, _ => .error (.badEscape [b, high, low])
      | _ => .error (.badEscape (b :: rest))
    else if part.admits b then do return b :: (← unescape part rest)
    else .error (.badHostCharacter b)

/-! ## Hosts -/

def checkPort (s : List UInt8) : Except UriError Unit :=
  match s with
  | [] => .ok ()
  | b :: digits =>
    if b = byte ':' && digits.all isDigitByte then .ok () else .error (.badPort s)

def splitZone : List UInt8 → List UInt8 × List UInt8
  | [] => ([], [])
  | b :: bs =>
    if (Text.bytes "%25").isPrefixOf (b :: bs) then ([], b :: bs)
    else let (address, zone) := splitZone bs; (b :: address, zone)

def checkLiteral (s : List UInt8) : Except UriError Unit := do
  let (address, zone) := splitZone s
  let name := (← unescape .host address) ++ (← unescape .zone zone)
  match addressKind name with
  | .error fault => .error (.badAddress fault name)
  | .ok .octets => .error .badLiteral
  | .ok .groups => .ok ()

def checkHost (s : List UInt8) : Except UriError Unit := do
  match cutAtLast (byte '[') s with
  | some ([], _) => match cutAtLast (byte ']') s with
    | none => .error .openBracket
    | some (before, after) =>
      checkPort after
      let _ ← unescape .host after
      checkLiteral before.tail
  | some _ => .error .badLiteral
  | none =>
    match cutAtLast (byte ':') s with
    | some (_, port) => checkPort (byte ':' :: port)
    | none => pure ()
    let _ ← unescape .host s

def isUserByte (b : UInt8) : Bool :=
  isAlphanumByte b || (Text.bytes "-._:~!$&'()*+,;=%@").contains b

def checkAuthority (s : List UInt8) : Except UriError Unit := do
  match cutAtLast (byte '@') s with
  | none => checkHost s
  | some (user, host) =>
    checkHost host
    if !user.all isUserByte then .error .badUser
    let (name, password) := cutAt (byte ':') user
    let _ ← unescape .path name
    let _ ← unescape .path (password.getD [])

/-! ## Paths -/

def splitScheme (s : List UInt8) : Except UriError (Bool × List UInt8) :=
  let isLater (b : UInt8) : Bool := isAlphanumByte b || (Text.bytes "+-.").contains b
  match s with
  | [] => .ok (false, [])
  | first :: _ =>
    if first = byte ':' then .error .missingScheme
    else match isAlphanumByte first && !isDigitByte first, s.dropWhile isLater with
      | true, b :: rest => .ok (if b = byte ':' then (true, rest) else (false, s))
      | _, _ => .ok (false, s)

def pathPart (hasScheme : Bool) (s : List UInt8) : Except UriError Path := do
  let slashes := (s.takeWhile (· = Path.slash)).length
  if slashes = 0 then
    if hasScheme then return []
    if (cutAt Path.slash s).1.contains (byte ':') then .error .colonInSegment
    unescape .path s
  else if slashes = 1 || (slashes ≠ 2 && !hasScheme) then unescape .path s
  else
    let rest := s.drop 2
    checkAuthority (rest.takeWhile (· ≠ Path.slash))
    unescape .path (rest.dropWhile (· ≠ Path.slash))

def plainPath (s : List UInt8) : Except UriError Path := do
  if s.any fun b => b < 32 || b = 127 then .error .controlCharacter
  if s = [byte '*'] then return s
  let (hasScheme, rest) ← splitScheme s
  pathPart hasScheme (cutAt (byte '?') rest).1

def uriPath (uri : String) : Except String Path := do
  let (s, fragment) := cutAt (byte '#') (Text.bytes uri)
  let refuse (text : List UInt8) (e : UriError) : String :=
    "invalid URI " ++ uri ++ ": parse " ++ quoteBytes text ++ ": " ++ e.message
  let path ← (plainPath s).mapError (refuse s)
  let _ ← (unescape .path (fragment.getD [])).mapError (refuse (Text.bytes uri))
  return path

end Flowgraph.Editor
