import Flowgraph.Diagnostic.Basic

/-! # Lowering failures

What stops the lowering of one function: the cause, the place and the function
it is charged to. A failure that a constant field remembers names that field, so
that everyone who meets it later meets the same failure.
-/

namespace Flowgraph

inductive FailureKind
  | malformed
  | unresolved
  | unsupported
  | notConstant
  | constantConstructor
  | other
  deriving DecidableEq, Repr

namespace FailureKind

def text : FailureKind → String
  | malformed => "malformed IR"
  | unresolved => "unresolved symbol"
  | unsupported => "unsupported construct"
  | notConstant => "not a constant"
  | constantConstructor => "invalid constant constructor"
  | other => "unknown"

def code : FailureKind → DiagnosticCode
  | unresolved => .unresolved
  | unsupported => .unsupported
  | notConstant => .notConstant
  | constantConstructor => .constantConstructor
  | malformed | other => .malformed

end FailureKind

structure Failure where
  kind : FailureKind
  code : DiagnosticCode
  message : String
  position : Position := .unknown
  /-- The function whose lowering failed; empty while none is charged. -/
  function : String := ""
  similar : List String := []
  /-- The constant field that first remembered this failure. -/
  origin : Option Nat := none
  deriving DecidableEq, Repr

namespace Failure

def of (kind : FailureKind) (position : Position) (message : String) : Failure :=
  { kind, code := kind.code, message, position }

/-- Charge a failure to a function. The first charge stays. -/
def charge (f : Failure) (function : String) : Failure :=
  if f.function = "" then { f with function } else f

def summary (f : Failure) : String :=
  let place := if f.position.isKnown then f.position.render ++ ": " else ""
  let function := if f.function = "" then "" else " (in " ++ f.function ++ ")"
  place ++ f.kind.text ++ ": " ++ f.message ++ function

def suggestions (f : Failure) : List Suggestion :=
  match f.kind, f.similar with
  | .unresolved, [name] => [⟨"did you mean '" ++ name ++ "'?", ""⟩]
  | .unresolved, name :: names =>
    [⟨"did you mean one of: '" ++ String.intercalate "', '" (name :: names) ++ "'?", ""⟩]
  | _, _ => []

def help (f : Failure) : String :=
  match f.kind with
  | .unresolved => "symbols come from the library and the loaded manifests"
  | .notConstant | .constantConstructor =>
    "constant expressions may only use literals, const constructors, const collections and const fields"
  | .unsupported => "this construct has no lowering; rewrite it with supported statements"
  | .malformed | .other => ""

def diagnostic (f : Failure) : Diagnostic :=
  { code := f.code.text
    message := f.message
    position := f.position
    suggestions := f.suggestions
    notes := if f.function = "" then [] else ["while lowering '" ++ f.function ++ "'"]
    help := f.help }

end Failure

end Flowgraph
