import Flowgraph.Yaml.Decode

/-! # Writing YAML scalars

A string is written plainly when it reads back as that string, and otherwise
between quotes. One with several lines is written as a block if it can be.
-/

namespace Flowgraph.Yaml

/-! ## Styles -/

/-- Whether a text is a number with colons between its digits, which some readers take for
minutes and seconds. -/
def isSexagesimal (text : String) : Bool :=
  let cs := match text.toList with
    | '+' :: cs | '-' :: cs => cs
    | cs => cs
  let isDigits (cs : List Char) : Bool := cs.all fun c => c.isDigit || c = '_'
  let isSixty : List Char → Bool
    | [a] => a.isDigit
    | [a, b] => '0' ≤ a && a ≤ '5' && b.isDigit
    | _ => false
  let number := cs.takeWhile (· ≠ '.')
  let fraction := (cs.dropWhile (· ≠ '.')).drop 1
  match number.splitOnP (· = ':') with
  | first :: parts =>
    first.head?.any Char.isDigit && isDigits first && !parts.isEmpty && parts.all isSixty &&
      isDigits fraction
  | [] => false

def isWord (text : String) : Bool :=
  (match Scalar.ofPlain text with
    | .string => true
    | _ => false) &&
  !isSexagesimal text && !trueWords.contains text && !falseWords.contains text

def isPrintable (c : Char) : Bool :=
  let n := c.toNat
  n = 0x0a || (0x20 ≤ n && n ≤ 0x7e) || (0xa0 ≤ n && n ≤ 0xfffd && n ≠ 0xfeff)

/-- Whether characters after `before` have a meaning of their own in a plain text. -/
def hasIndicator (before : Option Char) : List Char → Bool
  | [] => false
  | c :: cs =>
    let isBefore : Bool := cs = [] || cs.head?.any isBlank
    (c = ':' && isBefore) || (c = '#' && isGap before) || hasIndicator (some c) cs

def startsWithIndicator (cs : List Char) : Bool :=
  match cs with
  | [] => false
  | '-' :: '-' :: '-' :: _ | '.' :: '.' :: '.' :: _ => true
  | c :: rest =>
    "#,[]\x7b\x7d&*!|>'\"%@\x60".toList.contains c ||
      ((c = '?' || c = ':' || c = '-') && (rest = [] || rest.head?.any isBlank))

def hasPair (p q : Char → Bool) : List Char → Bool
  | a :: b :: cs => (p a && q b) || hasPair p q (b :: cs)
  | _ => false

def isSpecial (c : Char) : Bool := c ≠ '\t' && !isPrintable c

inductive Style
  | plain
  | single
  | double
  | literal
  deriving DecidableEq, Repr

def allowsBlock (cs : List Char) : Bool :=
  cs ≠ [] && cs.getLast? ≠ some ' ' && !cs.any isSpecial && !hasPair (· = ' ') isBreak cs

def allowsSingle (cs : List Char) : Bool :=
  !cs.any isSpecial && !cs.contains '\t' && !hasPair (· = ' ') isBreak cs &&
    !hasPair isBreak (· = ' ') cs

def allowsPlain (cs : List Char) : Bool :=
  allowsSingle cs && !cs.any isBreak && cs.head? ≠ some ' ' && cs.getLast? ≠ some ' ' &&
    !startsWithIndicator cs && !hasIndicator none cs

def styleOf (text : String) : Style :=
  let cs := text.toList
  if cs.contains '\n' then if allowsBlock cs then .literal else .double
  else if !isWord text then .double
  else if allowsPlain cs then .plain
  else if allowsSingle cs then .single
  else .double

/-! ## Texts -/

def upperHex (width n : Nat) : List Char :=
  let digits := (Nat.toDigits 16 n).map Char.toUpper
  List.replicate (width - digits.length) '0' ++ digits

def writeEscape (c : Char) : List Char :=
  '\\' :: match c with
    | '\x00' => ['0']
    | '\x07' => ['a']
    | '\x08' => ['b']
    | '\t' => ['t']
    | '\n' => ['n']
    | '\x0b' => ['v']
    | '\x0c' => ['f']
    | '\r' => ['r']
    | '\x1b' => ['e']
    | '"' => ['"']
    | '\\' => ['\\']
    | '\u0085' => ['N']
    | '\u00a0' => ['_']
    | '\u2028' => ['L']
    | '\u2029' => ['P']
    | c =>
      if c.toNat ≤ 0xff then 'x' :: upperHex 2 c.toNat
      else if c.toNat ≤ 0xffff then 'u' :: upperHex 4 c.toNat
      else 'U' :: upperHex 8 c.toNat

def writeDouble (cs : List Char) : List Char :=
  let escapesAll : Bool := cs.head? = some '\ufeff'
  '"' :: (cs.flatMap fun c =>
    if escapesAll || !isPrintable c || isBreak c || c = '"' || c = '\\' then writeEscape c
    else [c]) ++ ['"']

/-- Indent the lines of a text, apart from empty ones. `isStart` says whether a line starts
at the first character. -/
def indentLines (indent : Nat) (isStart : Bool) : List Char → List Char
  | [] => []
  | c :: cs =>
    if isBreak c then c :: indentLines indent true cs
    else (if isStart then List.replicate indent ' ' else []) ++ c :: indentLines indent false cs

def writeSingle (indent : Nat) (cs : List Char) : List Char :=
  '\'' :: indentLines indent false (cs.flatMap fun c => if c = '\'' then ['\'', '\''] else [c]) ++
    ['\'']

def indentStep : Nat := 4

def chompingMark (cs : List Char) : List Char :=
  match cs.reverse with
  | last :: before =>
    if !isBreak last then ['-']
    else if before = [] || before.head?.any isBreak then ['+']
    else []
  | [] => ['-']

def writeLiteral (indent : Nat) (cs : List Char) : List Char :=
  let startsOpen := cs.head?.any fun c => c = ' ' || isBreak c
  let hint := if startsOpen then (toString indentStep).toList else []
  let first := if cs.head?.any isBreak then [] else ['\n']
  '|' :: hint ++ chompingMark cs ++ first ++ indentLines indent true cs

def writeLine (indent : Nat) (text : String) : String :=
  let cs := text.toList
  match styleOf text with
  | .plain => text ++ "\n"
  | .single => String.ofList (writeSingle indent cs) ++ "\n"
  | .double => String.ofList (writeDouble cs) ++ "\n"
  | .literal =>
    String.ofList (writeLiteral indent cs) ++ if cs.getLast?.any isBreak then "" else "\n"

end Flowgraph.Yaml
