import Flowgraph.Text.Utf8

/-! # Files

The files that a run can read. They stand in the working directory, and paths
lead to them the way they do in a POSIX file system: `.` and empty parts stay
where they are, `..` goes up, and nothing lies below a file. What lies outside
the working directory is not known, apart from the directories above it.
-/

namespace Flowgraph

abbrev Path := List UInt8

namespace Path

def ofText (s : String) : Path := s.toUTF8.toList

def text (p : Path) : String := Text.decodeUtf8 p

def slash : UInt8 := 47

def parts (p : Path) : List Path := p.splitOnP (· = slash)

end Path

abbrev Files := List (String × String)

inductive FileError
  | missing
  | notDirectory
  | isDirectory
  | nameTooLong
  | zeroByte
  deriving DecidableEq, Repr

def FileError.action : FileError → String
  | isDirectory => "read"
  | _ => "open"

def FileError.cause : FileError → String
  | missing => "no such file or directory"
  | notDirectory => "not a directory"
  | isDirectory => "is a directory"
  | nameTooLong => "file name too long"
  | zeroByte => "invalid argument"

def FileError.message (e : FileError) (p : Path) : String :=
  e.action ++ " " ++ p.text ++ ": " ++ e.cause

inductive Place
  | here
  | above
  | file (text : String)
  deriving DecidableEq, Repr

namespace Files

def maxPart : Nat := 255

def maxPath : Nat := 4095

def find (files : Files) (name : Path) : Option String :=
  (files.find? (Path.ofText ·.1 = name)).map (·.2)

def step (files : Files) : Place → Path → Except FileError Place
  | .file _, _ => .error .notDirectory
  | place, part =>
    if part = [] || part = Path.ofText "." then .ok place
    else if part = Path.ofText ".." then .ok .above
    else if maxPart < part.length then .error .nameTooLong
    else match place, files.find part with
      | .here, some text => .ok (.file text)
      | _, _ => .error .missing

/-- Where a path leads, from the working directory or, after a slash, from the root.
A file whose name is the whole path is found at once. -/
def resolve (files : Files) (path : Path) : Except FileError Place :=
  if path.contains 0 then .error .zeroByte
  else if maxPath < path.length then .error .nameTooLong
  else match files.find path, path with
    | some text, _ => .ok (.file text)
    | none, [] => .error .missing
    | none, first :: _ =>
      path.parts.foldlM files.step (if first = Path.slash then .above else .here)

def read (files : Files) (path : Path) : Except String String :=
  match files.resolve path with
  | .ok (.file text) => .ok text
  | .ok _ => .error (FileError.isDirectory.message path)
  | .error e => .error (e.message path)

end Files

end Flowgraph
