import Flowgraph.Position

/-! # Tokens

The lexical units of a source text. The text of the tokens, joined, is the
source again.
-/

namespace Flowgraph

inductive TokenKind
  | eof
  | comment
  | whitespace
  | float
  | integer
  | stringStart
  | keyword
  | ident
  | operator
  | escaped
  | stringEnd
  | interpolationStart
  | chars
  | interpolationEnd
  deriving DecidableEq, Repr, Inhabited

def TokenKind.name : TokenKind → String
  | eof => "EOF"
  | comment => "Comment"
  | whitespace => "Whitespace"
  | float => "Float"
  | integer => "Integer"
  | stringStart => "StringStart"
  | keyword => "Keyword"
  | ident => "Ident"
  | operator => "Operator"
  | escaped => "Escaped"
  | stringEnd => "StringEnd"
  | interpolationStart => "InterpolationStart"
  | chars => "Chars"
  | interpolationEnd => "InterpolationEnd"

structure Token where
  kind : TokenKind
  text : String
  position : Position
  deriving DecidableEq, Repr, Inhabited

namespace Token

def isSkipped (t : Token) : Bool := t.kind = .whitespace || t.kind = .comment

def isEof (t : Token) : Bool := t.kind = .eof

end Token

end Flowgraph
