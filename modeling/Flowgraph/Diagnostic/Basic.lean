import Flowgraph.Position
import Flowgraph.Diagnostic.Code

/-! # Diagnostics

A message about a place in the source, with suggested fixes and notes.
-/

namespace Flowgraph

inductive Level
  | error
  | warning
  | note
  | help
  | other (name : String)
  deriving DecidableEq, Repr

namespace Level

def text : Level → String
  | error => "error"
  | warning => "warning"
  | note => "note"
  | help => "help"
  | other name => name

def ofText : String → Level
  | "error" => error
  | "warning" => warning
  | "note" => note
  | "help" => help
  | name => other name

end Level

/-- A proposed fix. An empty replacement means that none is offered. -/
structure Suggestion where
  message : String
  replacement : String := ""
  deriving DecidableEq, Repr

structure Diagnostic where
  level : Level := .error
  code : String := ""
  message : String
  position : Position := .unknown
  length : Int := 1
  suggestions : List Suggestion := []
  notes : List String := []
  help : String := ""
  deriving DecidableEq, Repr

namespace Diagnostic

def ofCode (code : DiagnosticCode) (position : Position) (message : String) : Diagnostic :=
  { code := code.text, position, message }

def suggest (d : Diagnostic) (message replacement : String) : Diagnostic :=
  { d with suggestions := d.suggestions ++ [⟨message, replacement⟩] }

def withNote (d : Diagnostic) (note : String) : Diagnostic :=
  { d with notes := d.notes ++ [note] }

def summary (d : Diagnostic) : String :=
  let code := if d.code = "" then "" else "[" ++ d.code ++ "]"
  d.position.render ++ ": " ++ d.level.text ++ code ++ ": " ++ d.message

end Diagnostic

end Flowgraph
