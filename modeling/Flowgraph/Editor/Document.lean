import Flowgraph.Editor.Uri
import Flowgraph.Editor.Highlight
import Flowgraph.Editor.Outline
import Flowgraph.Session

/-! # Documents

The server side of an editor session: the documents that are open, the last
library read from each, and the diagnostics to be shown.
-/

namespace Flowgraph.Editor

/-- A diagnostic in the form that editors show. Lines and columns count from zero. -/
structure Notice where
  line : Nat
  start : Nat
  stop : Nat
  message : String
  severity : Nat
  code : Option String
  deriving DecidableEq, Repr

def noticeSource : String := "dil"

def severityOf : Level → Nat
  | .warning => 2
  | .note => 3
  | .help => 4
  | .error | .other _ => 1

def noticeMessage (d : Diagnostic) : String :=
  d.message ++ String.join (d.suggestions.map fun s => "\n" ++ s.message) ++
    String.join (d.notes.map fun n => "\nnote: " ++ n) ++
    if d.help = "" then "" else "\nhelp: " ++ d.help

def Notice.ofDiagnostic (d : Diagnostic) : Notice :=
  let start := (d.position.column - 1).toNat
  { line := (d.position.line - 1).toNat
    start
    stop := start + (max d.length 1).toNat
    message := noticeMessage d
    severity := severityOf d.level
    code := if d.code = "" then none else some d.code }

def loweringNotices (settings : Settings) (files : Files) (l : Tree.Library) :
    Option (List Notice) :=
  match Symbols.Table.ofProgram files settings.manifests (some l) with
  | .error e => some [.ofDiagnostic (e.diagnostic l.place)]
  | .ok t => match (Lowering.lowerProgram settings).run { table := t } with
    | (.error _, _) => none
    | (.ok results, _) =>
      some ((Lowering.failures results).map fun f => .ofDiagnostic f.diagnostic)

structure Publication where
  uri : String
  notices : List Notice

structure Workspace where
  settings : Settings := {}
  files : Files := []
  texts : List (Path × String) := []
  libraries : List (Path × Tree.Library) := []
  outbox : List Publication := []

/-- Work on the documents, which may be refused with a message or break off. -/
abbrev EditM := ExceptT String (StateT Workspace Option)

def put {α : Type} (xs : List (Path × α)) (key : Path) (value : α) : List (Path × α) :=
  (key, value) :: xs.filter (·.1 ≠ key)

def find {α : Type} (xs : List (Path × α)) (key : Path) : Option α :=
  (xs.find? (·.1 = key)).map (·.2)

def pathOf (uri : String) : EditM Path := liftExcept (uriPath uri)
where
  liftExcept {α : Type} : Except String α → EditM α
    | .ok a => pure a
    | .error m => throw m

/-- Store a version of a document and tell what is wrong with it. A text that cannot
be read leaves the last library in place. -/
def update (path : Path) (text : String) : EditM (List Notice) := do
  modify fun w => { w with texts := put w.texts path text }
  let reading := Reading.ofSource path.text text
  match reading.accepted? false with
  | none => return reading.diagnostics.map .ofDiagnostic
  | some l =>
    modify fun w => { w with libraries := put w.libraries path l }
    let w ← get
    loweringNotices w.settings w.files l

def publish (uri : String) (path : Path) (text : String) : EditM Unit := do
  let notices ← update path text
  modify fun w => { w with outbox := w.outbox ++ [⟨uri, notices⟩] }

/-! ## Requests -/

def openDocument (uri text : String) : EditM Unit := do publish uri (← pathOf uri) text

def closeDocument (uri : String) : EditM Unit := do
  let path ← pathOf uri
  modify fun w => { w with texts := w.texts.filter (·.1 ≠ path)
                           libraries := w.libraries.filter (·.1 ≠ path) }

inductive Change
  | whole (text : String)
  | part (text : String)

/-- Only whole texts are understood, and the last one counts. -/
def changeDocument (uri : String) (changes : List Change) : EditM Unit := do
  let path ← pathOf uri
  match (changes.filterMap fun | .whole text => some text | .part _ => none).getLast? with
  | none => throw ("no full content change for " ++ uri)
  | some text => publish uri path text

def textOf (path : Path) : EditM String := do
  let w ← get
  match find w.texts path, w.files.read path with
  | some text, _ => return text
  | none, .ok text => return text
  | none, .error m => throw ("failed to read file " ++ path.text ++ ": " ++ m)

def documentHighlights (uri : String) : EditM (List Highlight) := do
  let path ← pathOf uri
  return highlight path.text (← textOf path)

/-- The outline of the last version that could be read. A document without one is
read first. -/
def documentOutline (uri : String) : EditM (List Symbol) := do
  let path ← pathOf uri
  if (find (← get).libraries path).isNone then
    publish uri path (← textOf path)
  return ((find (← get).libraries path).map outline).getD []

end Flowgraph.Editor
