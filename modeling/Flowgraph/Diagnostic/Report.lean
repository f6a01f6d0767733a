import Flowgraph.Failure
import Flowgraph.Text.Styled

/-! # Written reports

A diagnostic against the source it refers to: the message, the place, the line
with a marker below it, then suggestions, notes and help.
-/

namespace Flowgraph

open Text

structure Excerpt where
  file : String
  lines : List String

def Excerpt.ofSource (file source : String) : Excerpt := ⟨file, source.splitOn "\n"⟩

def Level.styles : Level → List Style
  | .warning => [.yellow, .bold]
  | .note => [.blue, .bold]
  | .help => [.green, .bold]
  | .error | .other _ => [.red, .bold]

def blanks (n : Nat) : String := String.ofList (List.replicate n ' ')

def flushRight (width : Nat) (n : Int) : String :=
  let s := toString n
  blanks (width - s.length) ++ s

namespace Excerpt

def marker (color : Bool) (d : Diagnostic) : String :=
  let count := if d.length ≤ 0 then 1 else d.length.toNat
  blanks (d.position.column - 1).toNat ++
    styled color d.level.styles (String.ofList (List.replicate count '^'))

def placeLines (e : Excerpt) (color : Bool) (width : Nat) (d : Diagnostic) : List String :=
  let pad := blanks width
  let dim := styled color [.faint]
  let line := d.position.line
  if line ≤ 0 then []
  else
    let place := e.file ++ ":" ++ toString line ++ ":" ++ toString d.position.column
    let head := [pad ++ " " ++ dim "-->" ++ " " ++ place, pad ++ " " ++ dim "|"]
    match e.lines[(line - 1).toNat]? with
    | some text =>
      head ++ [styled color [.bold] (flushRight width line) ++ " " ++ dim "|" ++ " " ++ text,
        pad ++ " " ++ dim "|" ++ " " ++ marker color d]
    | none => head

def suggestionLines (color : Bool) (pad : String) : List Suggestion → List String
  | [] => []
  | first :: rest =>
    let cyan := styled color [.cyan]
    let fix (s : Suggestion) : List String :=
      if s.replacement = "" then [] else [pad ++ " " ++ cyan "|" ++ " " ++ cyan s.replacement]
    (pad ++ " " ++ cyan "help" ++ ": " ++ first.message) :: fix first ++
      rest.flatMap fun s => (pad ++ "       " ++ s.message) :: fix s

def noteLines (color : Bool) (pad : String) (d : Diagnostic) : List String :=
  let dim := styled color [.faint]
  d.notes.map (fun note =>
    pad ++ " " ++ dim "=" ++ " " ++ styled color [.blue] "note:" ++ " " ++ note) ++
  (if d.help = "" then []
   else [pad ++ " " ++ dim "=" ++ " " ++ styled color [.green] "help:" ++ " " ++ d.help])

def report (e : Excerpt) (color : Bool) (d : Diagnostic) : String :=
  let code := if d.code = "" then "" else "[" ++ d.code ++ "]"
  let title := styled color d.level.styles d.level.text ++ code ++ ": " ++ d.message
  let width := max 3 (toString d.position.line).length
  let pad := blanks width
  let lines := title :: e.placeLines color width d ++ suggestionLines color pad d.suggestions ++
    noteLines color pad d ++ [""]
  String.join (lines.map (· ++ "\n"))

end Excerpt

end Flowgraph
