import Flowgraph.Token.Basic
import Flowgraph.Text.Quoted

/-! # Reading tokens

Reading is driven by a stack of modes. In each mode the rules are tried in
order and the first one that matches takes its characters; a quote opens a
string, and `${` inside a string opens an interpolation that the next `}` closes.
-/

namespace Flowgraph

namespace Lexer

inductive Mode
  | root
  | string
  | interpolation
  deriving DecidableEq, Repr

inductive Shift
  | stay
  | push (mode : Mode)
  | pop
  deriving DecidableEq, Repr

def Shift.apply : Shift → List Mode → List Mode
  | stay, modes => modes
  | push m, modes => m :: modes
  | pop, modes => modes.tail

/-- A rule gives the characters it takes from the front; none means no match. -/
structure Rule where
  kind : TokenKind
  take : List Char → List Char
  shift : Shift := .stay

def isWordStart (c : Char) : Bool := c.isAlpha || c = '_'

def isWord (c : Char) : Bool := c.isAlphanum || c = '_'

def isHex (c : Char) : Bool :=
  c.isDigit || (decide ('a' ≤ c) && decide (c ≤ 'f')) || (decide ('A' ≤ c) && decide (c ≤ 'F'))

def isBlank (c : Char) : Bool := c = ' ' || c = '\t' || c = '\r' || c = '\n'

def keywords : List String :=
  ["library", "class", "extends", "static", "external", "const", "final", "var", "fun", "get",
    "set", "factory", "new", "super", "this", "null", "true", "false", "if", "else", "while",
    "do", "for", "in", "break", "continue", "switch", "case", "default", "return", "try",
    "catch", "on", "finally", "throw", "rethrow", "assert", "yield", "is", "as", "let", "type"]

/-- Longer operators come before their beginnings. -/
def operators : List String :=
  ["??", "||", "&&", "===", "!==", "==", "!=", "<=", ">=", "=>", "::", "~/", "-", "+", "*", "/",
    "%", "<", ">", "=", "!", "?", ":", ".", ",", ";", "#", "(", ")", "[", "]", "\x7b", "\x7d",
    "&", "|", "^", "~"]

def literal (word : String) (cs : List Char) : List Char :=
  if word.toList.isPrefixOf cs then word.toList else []

def comment : List Char → List Char
  | '/' :: '/' :: cs => '/' :: '/' :: cs.takeWhile (· != '\n')
  | _ => []

def exponent : List Char → List Char
  | c :: cs =>
    if c = 'e' ∨ c = 'E' then
      match cs with
      | s :: ds =>
        let signed := s = '-' ∨ s = '+'
        let digits := (if signed then ds else cs).takeWhile Char.isDigit
        if digits.isEmpty then [] else if signed then c :: s :: digits else c :: digits
      | [] => []
    else []
  | [] => []

def float (cs : List Char) : List Char :=
  let whole := cs.takeWhile Char.isDigit
  match cs.dropWhile Char.isDigit with
  | '.' :: rest =>
    let fraction := rest.takeWhile Char.isDigit
    if whole.isEmpty || fraction.isEmpty then []
    else whole ++ '.' :: fraction ++ exponent (rest.dropWhile Char.isDigit)
  | _ => []

def integer (cs : List Char) : List Char :=
  let decimal := cs.takeWhile Char.isDigit
  match cs with
  | '0' :: x :: rest =>
    let digits := rest.takeWhile isHex
    if (x = 'x' ∨ x = 'X') ∧ ¬ digits.isEmpty then '0' :: x :: digits else decimal
  | _ => decimal

/-- The whole run of word characters, when it does not start with a digit. -/
def word : List Char → List Char
  | c :: cs => if isWordStart c then c :: cs.takeWhile isWord else []
  | [] => []

def keyword (cs : List Char) : List Char :=
  let w := word cs
  if String.ofList w ∈ keywords then w else []

def operator (cs : List Char) : List Char :=
  match operators.find? fun op => op.toList.isPrefixOf cs with
  | some op => op.toList
  | none => []

def escaped : List Char → List Char
  | '\\' :: c :: _ => if c = '\n' then [] else ['\\', c]
  | _ => []

/-- A run of plain characters, or one dollar sign that opens nothing. -/
def chars (cs : List Char) : List Char :=
  match cs.takeWhile fun c => c != '$' && c != '"' && c != '\\' with
  | [] => literal "$" cs
  | run => run

def rootRules : List Rule :=
  [⟨.comment, comment, .stay⟩,
    ⟨.whitespace, (·.takeWhile isBlank), .stay⟩,
    ⟨.float, float, .stay⟩,
    ⟨.integer, integer, .stay⟩,
    ⟨.stringStart, literal "\"", .push .string⟩,
    ⟨.keyword, keyword, .stay⟩,
    ⟨.ident, word, .stay⟩,
    ⟨.operator, operator, .stay⟩]

def stringRules : List Rule :=
  [⟨.escaped, escaped, .stay⟩,
    ⟨.stringEnd, literal "\"", .pop⟩,
    ⟨.interpolationStart, literal "$\x7b", .push .interpolation⟩,
    ⟨.chars, chars, .stay⟩]

def Mode.rules : Mode → List Rule
  | root => rootRules
  | string => stringRules
  | interpolation => ⟨.interpolationEnd, literal "\x7d", .pop⟩ :: rootRules

def firstMatch (rules : List Rule) (cs : List Char) : Option (Rule × List Char) :=
  match rules with
  | [] => none
  | r :: rest =>
    match r.take cs with
    | [] => firstMatch rest cs
    | taken => some (r, taken)

end Lexer

structure LexicalError where
  position : Position
  message : String
  deriving DecidableEq, Repr

namespace Lexer

def unreadable (position : Position) (cs : List Char) : LexicalError :=
  let shown := if 16 < cs.length then cs.take 16 ++ ['.', '.', '.'] else cs
  ⟨position, "lexer: invalid input text " ++ Text.quote (String.ofList shown)⟩

/-- The tokens up to the end or up to the first error. Each token takes at least
one character, so the number of characters bounds the steps. -/
def scanFrom : Nat → List Mode → Position → List Char → List Token × Option LexicalError
  | _, _, p, [] => ([⟨.eof, "", p⟩], none)
  | 0, _, p, cs => ([], some (unreadable p cs))
  | fuel + 1, modes, p, cs =>
    match firstMatch (modes.headD .root).rules cs with
    | none => ([], some (unreadable p cs))
    | some (rule, taken) =>
      let (tokens, error) := scanFrom fuel (rule.shift.apply modes) (p.advance taken)
        (cs.drop taken.length)
      (⟨rule.kind, String.ofList taken, p⟩ :: tokens, error)

/-- All tokens of a text, the skipped ones included, and the error that ends them. -/
def scan (file source : String) : List Token × Option LexicalError :=
  let cs := source.toList
  scanFrom cs.length [.root] { file, line := 1, column := 1 } cs

end Lexer

def tokens? (file source : String) : Except LexicalError (List Token) :=
  match Lexer.scan file source with
  | (_, some e) => .error e
  | (ts, none) => .ok ts

end Flowgraph
