import Flowgraph.Yaml.Token.Basic
import Flowgraph.Text.Bytes
import Flowgraph.Decimal.Numeral

/-! # Directives, anchors and tags

A tag is written after a handle that stands for its start, or in full between
`!<` and `>`. Escaped bytes in a tag have to form characters.
-/

namespace Flowgraph.Yaml

def takeName (c : Cursor) : String × Cursor :=
  let name := c.rest.takeWhile isNameChar
  (String.ofList name, c.skip name.length)

/-! ## Anchors -/

def anchorName (c : Cursor) : Except Mistake (String × Cursor) :=
  let (name, rest) := takeName (c.skip 1)
  let endsWell := isGap rest.head? || rest.head?.any fun ch => "?:,]\x7d%@\x60".toList.contains ch
  if name = "" || !endsWell then .error (rest.mistake c.mark .badAnchor) else .ok (name, rest)

/-! ## Tags -/

def isTagChar (c : Char) : Bool := isNameChar c || ";/?:@&=+$,.!~*'()[]%".toList.contains c

def utf8Width (b : UInt8) : Option Nat :=
  if b < 0x80 then some 1
  else if 0xc0 ≤ b && b < 0xe0 then some 2
  else if 0xe0 ≤ b && b < 0xf0 then some 3
  else if 0xf0 ≤ b && b < 0xf8 then some 4
  else none

def escapedByte (cs : List Char) : Option UInt8 :=
  match cs with
  | '%' :: high :: low :: _ => do
    let h ← Text.hexValue? (← (Text.bytes (String.singleton high)).head?)
    let l ← Text.hexValue? (← (Text.bytes (String.singleton low)).head?)
    return h * 16 + l
  | _ => none

def escapedTail (start : Mark) : Nat → Cursor → Except Mistake (List UInt8 × Cursor)
  | 0, c => .ok ([], c)
  | n + 1, c => match escapedByte c.rest with
    | none => .error (c.mistake start .badTagEscape)
    | some b =>
      if b &&& 0xc0 ≠ 0x80 then .error (c.mistake start .badLaterOctet)
      else do
        let (bs, c) ← escapedTail start n (c.skip 3)
        return (b :: bs, c)

def escapedChar (start : Mark) (c : Cursor) : Except Mistake (List UInt8 × Cursor) :=
  match escapedByte c.rest with
  | none => .error (c.mistake start .badTagEscape)
  | some b => match utf8Width b with
    | none => .error (c.mistake start .badFirstOctet)
    | some width => do
      let (bs, c) ← escapedTail start (width - 1) (c.skip 3)
      return (b :: bs, c)

def tagBytes (start : Mark) : Nat → Cursor → Except Mistake (List UInt8 × Cursor)
  | 0, c => .ok ([], c)
  | limit + 1, c =>
    match c.head? with
    | some '%' => do
      let (first, c) ← escapedChar start c
      let (later, c) ← tagBytes start limit c
      return (first ++ later, c)
    | some ch =>
      if isTagChar ch then do
        let (later, c) ← tagBytes start limit (c.skip 1)
        return (Text.bytes (String.singleton ch) ++ later, c)
      else .ok ([], c)
    | none => .ok ([], c)

def tagText (start : Mark) (head : String) (c : Cursor) : Except Mistake (String × Cursor) := do
  let (bs, rest) ← tagBytes start (c.rest.length + 1) c
  if head = "" && bs = [] then throw (rest.mistake start .emptyTag)
  return (String.ofList (head.toList.drop 1) ++ Text.decodeUtf8 bs, rest)

/-- A handle: an exclamation mark, and a name between two of them. A tag may start like
one, a directive has to have a whole one. -/
def tagHandle (start : Mark) (isDirective : Bool) (c : Cursor) : Except Mistake (String × Cursor) :=
  if c.head? ≠ some '!' then .error (c.mistake start .missingExclamation)
  else
    let (name, rest) := takeName (c.skip 1)
    if rest.head? = some '!' then .ok ("!" ++ name ++ "!", rest.skip 1)
    else if isDirective && name ≠ "" then .error (rest.mistake start .missingExclamation)
    else .ok ("!" ++ name, rest)

def tagParts (start : Mark) (c : Cursor) : Except Mistake (String × String × Cursor) := do
  if c.second? = some '<' then
    let (suffix, c) ← tagText start "" (c.skip 2)
    if c.head? ≠ some '>' then throw (c.mistake start .missingTagEnd)
    return ("", suffix, c.skip 1)
  let (handle, c) ← tagHandle start false c
  if handle ≠ "!" && handle.toList.getLast? = some '!' then
    let (suffix, c) ← tagText start "" c
    return (handle, suffix, c)
  let (suffix, c) ← tagText start handle c
  if suffix = "" then return ("", handle, c)
  return ("!", suffix, c)

def tag (c : Cursor) : Except Mistake (TokenKind × Cursor) := do
  let (handle, suffix, rest) ← tagParts c.mark c
  if !isGap rest.head? then throw (rest.mistake c.mark .missingBlankOrBreak)
  return (.tag handle suffix, rest)

/-! ## Directives -/

def versionNumber (start : Mark) (c : Cursor) : Except Mistake (Nat × Cursor) :=
  let digits := c.rest.takeWhile Char.isDigit
  let rest := c.skip digits.length
  if 2 < digits.length then .error (rest.mistake start .longVersion)
  else if digits = [] then .error (c.mistake start .missingVersion)
  else .ok (Decimal.naturalOf digits, rest)

def versionDirective (start : Mark) (c : Cursor) : Except Mistake (TokenKind × Cursor) := do
  let (major, c) ← versionNumber start c.skipBlanks
  if c.head? ≠ some '.' then throw (c.mistake start .missingVersionPoint)
  let (minor, c) ← versionNumber start (c.skip 1)
  return (.version major minor, c)

def tagDirective (start : Mark) (c : Cursor) : Except Mistake (TokenKind × Cursor) := do
  let (handle, c) ← tagHandle start true c.skipBlanks
  if !c.head?.any isBlank then throw (c.mistake start .missingBlank)
  let (first, c) ← tagText start "" c.skipBlanks
  if !isGap c.head? then throw (c.mistake start .missingBlankOrBreak)
  return (.tagHandle handle first, c)

def directive (c : Cursor) : Except Mistake (TokenKind × Cursor) := do
  let start := c.mark
  let (name, c) := takeName (c.skip 1)
  if name = "" then throw (c.mistake start .missingDirectiveName)
  if !isGap c.head? then throw (c.mistake start .badDirectiveName)
  let (kind, c) ← match name with
    | "YAML" => versionDirective start c
    | "TAG" => tagDirective start c
    | _ => throw (c.mistake start .unknownDirective)
  let c := c.skipBlanks.skipComment
  if !isBreakOrEnd c.head? then throw (c.mistake start .lineContinues)
  return (kind, if c.rest = [] then c else c.skipBreak)

end Flowgraph.Yaml
