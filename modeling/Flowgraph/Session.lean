import Flowgraph.Resolve.Library
import Flowgraph.Symbols.ManifestText
import Flowgraph.Diagnostic.Report
import Flowgraph.Graph.Printer
import Flowgraph.Lowering.Program

/-! # Interactive sessions

A session collects statements into the body of one function and lowers it again
with every statement. Statements that cannot be read or lowered are not kept.
-/

namespace Flowgraph

open Lowering (Result)

def Lowering.failures (results : List Result) : List Failure :=
  results.filterMap fun r => match r.outcome with
    | .ok _ => none
    | .error f => some f

def Lowering.renderAll (t : Symbols.Table) (results : List Result) : String :=
  String.join <| results.filterMap fun r => match r.outcome with
    | .ok g => some (g.render false t)
    | .error _ => none

/-- The graphs of a source text, or a report of everything that is wrong with it.
There is neither if the lowering of a function breaks off. -/
def lowerSource (settings : Settings) (files : Files) (file source : String) :
    ExceptT String Option String := do
  let excerpt := Excerpt.ofSource file source
  let report (ds : List Diagnostic) : String := String.join (ds.map (excerpt.report false))
  let reading := Reading.ofSource file source
  match reading.accepted? false with
  | none => throw (report reading.diagnostics)
  | some library =>
    match Symbols.Table.ofProgram files settings.manifests (some library) with
    | .error e => throw (report [e.diagnostic .unknown])
    | .ok t => match (Lowering.lowerProgram settings).run { table := t } with
      | (.error _, _) => ExceptT.lift none
      | (.ok results, s) => match Lowering.failures results with
        | [] => return Lowering.renderAll s.table results
        | fs => throw (report (fs.map Failure.diagnostic))

structure Session where
  settings : Settings := {}
  body : List String := []
  graphs : String := ""

namespace Session

def source (s : Session) (snippet : String) : String :=
  let statements := s.body ++ if snippet = "" then [] else [snippet]
  "library repl;\nfun main() \x7b\n" ++ String.join (statements.map (· ++ "\n")) ++ "\x7d\n"

/-- Lower the session with one more statement, which is kept if that succeeds. -/
def eval (s : Session) (files : Files) (snippet : String) :
    Option (Except String String × Session) := do
  match ← (lowerSource s.settings files "<repl>" (s.source snippet)).run with
  | .error message => return (.error message, s)
  | .ok graphs => return (.ok graphs, { s with body := s.body ++ [snippet], graphs })

def reset (s : Session) : Session := { s with body := [], graphs := "" }

def load (s : Session) (files : Files) (path : String) : ExceptT String Option String :=
  match files.read (Path.ofText path) with
  | .error m => throw ("cannot read " ++ path ++ ": " ++ m)
  | .ok source => lowerSource s.settings files path source

/-! ## Input -/

def bracketDelta (t : Token) : Int :=
  match t.kind, t.text with
  | .operator, "\x7b" | .operator, "(" | .operator, "[" => 1
  | .operator, "\x7d" | .operator, ")" | .operator, "]" => -1
  | _, _ => 0

def stringDelta (t : Token) : Int :=
  match t.kind with
  | .stringStart => 1
  | .stringEnd => -1
  | _ => 0

def balance (delta : Token → Int) : List Token → Int
  | [] => 0
  | t :: rest => delta t + balance delta rest

/-- Whether a text needs no further lines: no bracket or string is left open. A text
that has no tokens is complete, so that its mistake gets reported. -/
def isComplete (text : String) : Bool :=
  match Lexer.scan "<repl>" text with
  | (_, some _) => true
  | (tokens, none) =>
    balance bracketDelta tokens ≤ 0 && balance stringDelta tokens = 0

/-! ## Commands -/

def help : String :=
  "Statements are appended to the body of main and the graph is rebuilt.\n" ++
  "  :graph        print the current graph of main again\n" ++
  "  :load <file>  lower every function of a library and print the graphs\n" ++
  "  :reset        forget all statements\n" ++
  "  :quit         leave\n"

def isSpace (c : Char) : Bool :=
  let n := c.toNat
  (9 ≤ n && n ≤ 13) || (0x2000 ≤ n && n ≤ 0x200a) ||
    [0x20, 0x85, 0xa0, 0x1680, 0x2028, 0x2029, 0x202f, 0x205f, 0x3000].contains n

def words (line : String) : List String :=
  ((line.toList.splitOnP isSpace).filter (!·.isEmpty)).map String.ofList

structure Reply where
  text : String := ""
  isLast : Bool := false

def command (s : Session) (files : Files) (line : String) : Option (Reply × Session) := do
  match words line with
  | [] => none
  | ":help" :: _ => return ({ text := help }, s)
  | ":quit" :: _ | ":exit" :: _ => return ({ isLast := true }, s)
  | ":reset" :: _ => return ({ text := "session reset.\n" }, s.reset)
  | ":graph" :: _ => return ({ text := s.graphs }, s)
  | [":load"] => return ({ text := "usage: :load <file>\n" }, s)
  | ":load" :: path :: _ => match ← (s.load files path).run with
    | .ok text => return ({ text }, s)
    | .error message => return ({ text := message ++ "\n" }, s)
  | _ => return ({ text := "unknown command. Type :help for help.\n" }, s)

end Session

end Flowgraph
