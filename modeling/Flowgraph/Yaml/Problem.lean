/-! # What can be wrong with a YAML text

A mistake is a problem and the line it is reported at. Lines count from zero
while a text is read. A problem in a token is reported at the line of the
construct around it, or at its own if that is the first line; a problem between
tokens names the line before it. Line zero is not reported.
-/

namespace Flowgraph.Yaml

inductive Problem
  | controlCharacter
  | badStart
  | tooDeep
  | missingColon
  | misplacedEntry
  | misplacedKey
  | misplacedValue
  | unknownDirective
  | missingDirectiveName
  | badDirectiveName
  | missingVersion
  | longVersion
  | missingVersionPoint
  | lineContinues
  | missingBlank
  | missingBlankOrBreak
  | badAnchor
  | missingExclamation
  | missingTagEnd
  | emptyTag
  | badTagEscape
  | badFirstOctet
  | badLaterOctet
  | zeroIndentation
  | tabInBlock
  | tabInPlain
  | documentInQuotes
  | endInQuotes
  | unknownEscape
  | missingHexDigit
  | badCodePoint
  | repeatedVersion
  | wrongVersion
  | repeatedTagHandle
  | unknownTagHandle
  | missingDocumentStart
  | missingNode
  | missingEntry
  | missingKey
  | missingSequenceComma
  | missingMappingComma
  | unknownAnchor (name : String)
  | selfReference (name : String)
  | badBinary
  | badMerge
  | wrongTag (tag text written : String)
  deriving DecidableEq, Repr

def Problem.text : Problem → String
  | controlCharacter => "control characters are not allowed"
  | badStart => "found character that cannot start any token"
  | tooDeep => "exceeded max depth of 10000"
  | missingColon => "could not find expected ':'"
  | misplacedEntry => "block sequence entries are not allowed in this context"
  | misplacedKey => "mapping keys are not allowed in this context"
  | misplacedValue => "mapping values are not allowed in this context"
  | unknownDirective => "found unknown directive name"
  | missingDirectiveName => "could not find expected directive name"
  | badDirectiveName => "found unexpected non-alphabetical character"
  | missingVersion => "did not find expected version number"
  | longVersion => "found extremely long version number"
  | missingVersionPoint => "did not find expected digit or '.' character"
  | lineContinues => "did not find expected comment or line break"
  | missingBlank => "did not find expected whitespace"
  | missingBlankOrBreak => "did not find expected whitespace or line break"
  | badAnchor => "did not find expected alphabetic or numeric character"
  | missingExclamation => "did not find expected '!'"
  | missingTagEnd => "did not find the expected '>'"
  | emptyTag => "did not find expected tag URI"
  | badTagEscape => "did not find URI escaped octet"
  | badFirstOctet => "found an incorrect leading UTF-8 octet"
  | badLaterOctet => "found an incorrect trailing UTF-8 octet"
  | zeroIndentation => "found an indentation indicator equal to 0"
  | tabInBlock => "found a tab character where an indentation space is expected"
  | tabInPlain => "found a tab character that violates indentation"
  | documentInQuotes => "found unexpected document indicator"
  | endInQuotes => "found unexpected end of stream"
  | unknownEscape => "found unknown escape character"
  | missingHexDigit => "did not find expected hexdecimal number"
  | badCodePoint => "found invalid Unicode character escape code"
  | repeatedVersion => "found duplicate %YAML directive"
  | wrongVersion => "found incompatible YAML document"
  | repeatedTagHandle => "found duplicate %TAG directive"
  | unknownTagHandle => "found undefined tag handle"
  | missingDocumentStart => "did not find expected <document start>"
  | missingNode => "did not find expected node content"
  | missingEntry => "did not find expected '-' indicator"
  | missingKey => "did not find expected key"
  | missingSequenceComma => "did not find expected ',' or ']'"
  | missingMappingComma => "did not find expected ',' or '\x7d'"
  | unknownAnchor name => "unknown anchor '" ++ name ++ "' referenced"
  | selfReference name => "anchor '" ++ name ++ "' value contains itself"
  | badBinary => "!!binary value contains invalid base64 data"
  | badMerge => "map merge requires map or sequence of maps as the value"
  | wrongTag tag text written =>
    "cannot decode " ++ tag ++ " \x60" ++ text ++ "\x60 as a " ++ written

structure Mistake where
  problem : Problem
  line : Nat := 0
  deriving DecidableEq, Repr

namespace Mistake

def inToken (problem : Problem) (around line : Nat) : Mistake :=
  let place := if around = 0 then line else around
  ⟨problem, if place = 0 then 0 else place + 1⟩

def between (problem : Problem) (around line : Nat) : Mistake :=
  ⟨problem, if around = 0 then line else around⟩

def message (m : Mistake) : String :=
  "yaml: " ++ (if m.line = 0 then "" else "line " ++ toString m.line ++ ": ") ++ m.problem.text

end Mistake

end Flowgraph.Yaml
