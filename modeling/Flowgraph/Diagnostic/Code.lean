/-! # Diagnostic codes

Every cause that is reported has a code. The hundreds group the codes by the
stage that reports them.
-/

namespace Flowgraph

inductive DiagnosticCode
  | grammar
  | undeclared
  | jumpTarget
  | declaration
  | unresolved
  | manifest
  | notConstant
  | constantConstructor
  | cyclicConstant
  | malformed
  | unsupported
  | settings
  deriving DecidableEq, Repr

namespace DiagnosticCode

def all : List DiagnosticCode :=
  [grammar, undeclared, jumpTarget, declaration, unresolved, manifest, notConstant,
    constantConstructor, cyclicConstant, malformed, unsupported, settings]

def text : DiagnosticCode → String
  | grammar => "E0100"
  | undeclared => "E0101"
  | jumpTarget => "E0102"
  | declaration => "E0103"
  | unresolved => "E0200"
  | manifest => "E0201"
  | notConstant => "E0300"
  | constantConstructor => "E0301"
  | cyclicConstant => "E0302"
  | malformed => "E0400"
  | unsupported => "E0401"
  | settings => "E0900"

def description : DiagnosticCode → String
  | grammar => "Source text does not match the grammar"
  | undeclared => "Identifier is used but not declared in an enclosing scope"
  | jumpTarget => "break or continue has no matching target"
  | declaration => "Declaration cannot be represented"
  | unresolved => "Referenced class, field or function does not exist"
  | manifest => "Symbol manifest is invalid"
  | notConstant => "Expression is not a compile-time constant"
  | constantConstructor => "Constructor cannot be invoked in a constant context"
  | cyclicConstant => "Constant initializer refers to itself"
  | malformed => "Source IR violates a structural invariant"
  | unsupported => "Construct cannot be lowered"
  | settings => "Configuration is invalid"

def ofText? (s : String) : Option DiagnosticCode := all.find? (·.text = s)

theorem ofText?_text (c : DiagnosticCode) : ofText? c.text = some c := by cases c <;> decide

end DiagnosticCode

def describeCode (s : String) : String :=
  match DiagnosticCode.ofText? s with
  | some c => c.description
  | none => "Unknown error code"

def codeStages : List (String × String × String) :=
  [("E0100", "E0200", "Reader"), ("E0200", "E0300", "Symbols"), ("E0300", "E0400", "Constants"),
    ("E0400", "E0500", "Lowering"), ("E0900", "E1000", "Tooling")]

def codeStage (s : String) : String :=
  match codeStages.find? fun (lo, hi, _) => decide (lo ≤ s) && decide (s < hi) with
  | some (_, _, name) => name
  | none => "Unknown"

end Flowgraph
