import Flowgraph.Grammar.Rules
import Flowgraph.Surface.Piece
import Flowgraph.Diagnostic.Basic
import Flowgraph.Token.Lexer

/-! # Matching tokens against the grammar

Alternatives are tried in order on a copy of the cursor. One that fails after
more than `lookahead` tokens is final; otherwise the next one is tried. The
cursor remembers the error that lies deepest in the text.
-/

namespace Flowgraph.Grammar

open Surface (Kept Part Piece BadNumeral)

inductive MatchError
  | unexpected (token : Token) (expected : List Pattern)
  | numeral (cause : BadNumeral)
  | tooDeep (token : Token)
  deriving Inhabited

namespace MatchError

def position : MatchError → Position
  | unexpected t _ => t.position
  | numeral n => n.token.position
  | tooDeep t => t.position

def tokenText (t : Token) : String := if t.isEof then "<EOF>" else t.text

def message : MatchError → String
  | unexpected t [] => "unexpected token " ++ Text.quote (tokenText t)
  | unexpected t expected =>
    "unexpected token " ++ Text.quote (tokenText t) ++
      " (expected " ++ Pattern.renderJoined " " expected ++ ")"
  | numeral n =>
    "failed to conform: strconv.ParseFloat: parsing " ++ Text.quote n.token.text ++ ": " ++
      n.cause.message
  | tooDeep _ => "nesting too deep"

def length : MatchError → Int
  | unexpected t _ => max t.text.utf8ByteSize 1
  | _ => 1

def diagnostic (e : MatchError) : Diagnostic :=
  let d := { Diagnostic.ofCode .grammar e.position e.message with length := e.length }
  match e with
  | unexpected t _ =>
    if t.isEof then d.withNote "the file ended in the middle of a declaration" else d
  | _ => d

end MatchError

/-- A place among the tokens and the deepest error met so far. -/
structure Cursor where
  rest : List Token
  consumed : Nat := 0
  deepest : Option MatchError := none
  depth : Nat := 0

inductive Outcome
  | noMatch
  | matched (kept : Kept)
  | error (e : MatchError)

def lookahead : Nat := 6

namespace Cursor

def next (c : Cursor) : Token := c.rest.headD default

def consume (c : Cursor) : Cursor := { c with rest := c.rest.tail, consumed := c.consumed + 1 }

def remember (c : Cursor) (e : MatchError) : Cursor :=
  if c.depth ≤ c.consumed then { c with deepest := some e, depth := c.consumed } else c

def accept (c branch : Cursor) : Cursor :=
  if c.depth ≤ branch.depth then branch
  else { branch with deepest := c.deepest, depth := c.depth }

/-- Whether the failure of a branch is final, with what the branch has learned. -/
def stop (c : Cursor) (e : MatchError) (branch : Cursor) : Bool × Cursor :=
  let learned :=
    if c.depth < branch.depth then { c with deepest := branch.deepest, depth := branch.depth }
    else if c.depth ≤ branch.consumed then
      { c with deepest := some e, depth := max branch.consumed branch.depth }
    else c
  if c.consumed + lookahead < branch.consumed then (true, learned.accept branch)
  else (false, learned)

end Cursor

def keepUnder (slot : Option Slot) (part : Part) : Kept :=
  match slot with
  | some s => [(s, part)]
  | none => []

def repeatMatch (step : Cursor → Outcome × Cursor) (needed : Bool) :
    Nat → Cursor → Kept → Nat → Outcome × Cursor
  | 0, c, kept, _ => (.matched kept, c)
  | limit + 1, c, kept, count =>
    let finish (c : Cursor) : Outcome × Cursor :=
      if needed && count == 0 then (.noMatch, c) else (.matched kept, c)
    match step c with
    | (.error e, branch) =>
      match (c.remember e).stop e branch with
      | (true, c) => (.error e, c)
      | (false, c) => finish c
    | (.noMatch, branch) => finish (c.accept branch)
    | (.matched more, branch) =>
      repeatMatch step needed limit (c.accept branch) (kept ++ more) (count + 1)

/-- An alternative's error replaces an earlier one that got less far. -/
def fartherError (best : Option (MatchError × Nat)) (e : MatchError) (reached : Nat) :
    Option (MatchError × Nat) :=
  match best with
  | none => some (e, reached)
  | some (_, n) => if n ≤ reached then some (e, reached) else best

mutual

/-- Match one pattern; `callRule` matches the rules it refers to, and what leaves
match is kept under `slot`. -/
def Pattern.run (callRule : Rule → Cursor → Except MatchError (Option Piece) × Cursor)
    (slot : Option Slot) : Pattern → Cursor → Outcome × Cursor
  | .literal text, c =>
    if !c.next.isEof && c.next.text = text then
      (.matched (keepUnder slot (.token c.next)), c.consume)
    else (.noMatch, c)
  | .token kind, c =>
    if c.next.kind = kind then (.matched (keepUnder slot (.token c.next)), c.consume)
    else (.noMatch, c)
  | .rule r, c =>
    match callRule r c with
    | (.ok none, c) => (.noMatch, c)
    | (.ok (some piece), c) => (.matched (keepUnder slot (.piece piece)), c)
    | (.error e, c) => (.error e, c)
  | .keep s body, c => body.run callRule (some s) c
  | .seq parts, c => Pattern.runSeq callRule slot true parts c
  | .choice alternatives, c => Pattern.runChoice callRule slot alternatives none c
  | .group .once body, c => body.run callRule slot c
  | .group .optional body, c => repeatMatch (body.run callRule slot) false 1 c [] 0
  | .group .many body, c =>
    repeatMatch (body.run callRule slot) false (c.rest.length + 1) c [] 0
  | .group .some body, c =>
    repeatMatch (body.run callRule slot) true (c.rest.length + 1) c [] 0

/-- After the first part of a sequence has matched, all others have to. -/
def Pattern.runSeq (callRule : Rule → Cursor → Except MatchError (Option Piece) × Cursor)
    (slot : Option Slot) (first : Bool) : List Pattern → Cursor → Outcome × Cursor
  | [], c => (.matched [], c)
  | p :: ps, c =>
    match p.run callRule slot c with
    | (.error e, c) => (.error e, c)
    | (.noMatch, c) =>
      if first then (.noMatch, c) else (.error (.unexpected c.next (p :: ps)), c)
    | (.matched kept, c) =>
      match Pattern.runSeq callRule slot false ps c with
      | (.matched more, c) => (.matched (kept ++ more), c)
      | other => other

def Pattern.runChoice (callRule : Rule → Cursor → Except MatchError (Option Piece) × Cursor)
    (slot : Option Slot) : List Pattern → Option (MatchError × Nat) → Cursor → Outcome × Cursor
  | [], none, c => (.noMatch, c)
  | [], some (e, _), c => (.error e, c.remember e)
  | p :: ps, best, c =>
    match p.run callRule slot c with
    | (.error e, branch) =>
      match c.stop e branch with
      | (true, c) => (.error e, c)
      | (false, c) =>
        Pattern.runChoice callRule slot ps (fartherError best e branch.consumed) c
    | (.noMatch, _) => Pattern.runChoice callRule slot ps best c
    | (.matched kept, branch) => (.matched kept, c.accept branch)

end

/-- Match a rule. `fuel` bounds the nesting of rules. -/
def Rule.run : Nat → Rule → Cursor → Except MatchError (Option Piece) × Cursor
  | 0, _, c => (.error (.tooDeep c.next), c)
  | fuel + 1, r, c =>
    match r.pattern.run (Rule.run fuel) none c with
    | (.error e, c') => (.error e, c'.remember e)
    | (.noMatch, c') => (.ok none, c')
    | (.matched kept, c') =>
      match Surface.build r c.next.position kept with
      | .ok piece => (.ok (some piece), c')
      | .error n => (.error (.numeral n), c')

/-- More rules than can be entered one inside the other without a token between. -/
def rulesPerToken : Nat := 64

/-- Where the text before a token starts that belongs to no other token: at the first
of the skipped tokens in front of it, or at the token itself. -/
def gapBefore (t : Token) : List Token → Option Position → Position
  | [], start => start.getD t.position
  | u :: rest, start =>
    if u.position = t.position then start.getD t.position
    else if u.isSkipped then gapBefore t rest (start.getD u.position)
    else gapBefore t rest none

/-- A numeral that has no value is reported together with the gap before it. -/
def MatchError.widened (tokens : List Token) : MatchError → MatchError
  | numeral n => numeral { n with token.position := gapBefore n.token tokens none }
  | e => e

/-- The program that all tokens make up. The tokens end with the end of the text. -/
def program? (tokens : List Token) : Except MatchError Surface.Program :=
  let significant := tokens.filter fun t => !t.isSkipped
  let start : Cursor := { rest := significant }
  let leftOver (c : Cursor) : MatchError :=
    let e := .unexpected c.next []
    match c.deepest with
    | some d => if c.depth ≤ c.consumed then e else d
    | none => e
  match Rule.run (rulesPerToken * (significant.length + 1)) .program start with
  | (.error e, _) => .error e
  | (.ok (some (.program p)), c) => if c.next.isEof then .ok p else .error (leftOver c)
  | (.ok _, c) => .error (leftOver c)

end Flowgraph.Grammar

namespace Flowgraph.Surface

def parse (file source : String) : Except Diagnostic Program :=
  match tokens? file source with
  | .error e => .error (Diagnostic.ofCode .grammar e.position e.message)
  | .ok tokens => (Grammar.program? tokens).mapError fun e => (e.widened tokens).diagnostic

end Flowgraph.Surface
