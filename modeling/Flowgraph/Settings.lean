import Flowgraph.Yaml.Writer
import Flowgraph.Files

/-! # Settings

How programs are lowered and how reports look, read from YAML on top of the
defaults. Unknown keys are refused.
-/

namespace Flowgraph

structure Settings where
  /-- How many functions are lowered at a time; by default as many as there are processors. -/
  workers : Option Int := none
  firstBlock : Int := 1
  enableAsserts : Bool := false
  stackChecks : Bool := true
  color : String := "auto"
  verbosity : Int := 0
  logFile : String := ""
  manifests : List String := []
  deriving DecidableEq, Repr

namespace Settings

open Yaml (Node Decode RecordType change decodeString decodeInt decodeBool decodeList decodeRecord)

def logType : RecordType Settings where
  name := "config.Log"
  isStrict := true
  field
    | "verbosity" => some (change decodeInt fun s n => { s with verbosity := n })
    | "file" => some (change (decodeString "string") fun s f => { s with logFile := f })
    | _ => none

def settingsType : RecordType Settings where
  name := "config.Config"
  isStrict := true
  field
    | "workers" => some (change decodeInt fun s n => { s with workers := some n })
    | "first_block_id" => some (change decodeInt fun s n => { s with firstBlock := n })
    | "enable_asserts" => some (change decodeBool fun s b => { s with enableAsserts := b })
    | "stack_overflow_checks" => some (change decodeBool fun s b => { s with stackChecks := b })
    | "color" => some (change (decodeString "config.ColorMode") fun s c => { s with color := c })
    | "log" => some fun n s => return (← decodeRecord logType s n).getD s
    | "manifests" => some (change (decodeList "[]string" (decodeString "string"))
        fun s ns => { s with manifests := ns })
    | _ => none

def colorModes : List String := ["auto", "always", "never"]

def problem? (s : Settings) : Option String :=
  if s.workers.any (· < 1) then
    some ("workers must be at least 1, got " ++ toString (s.workers.getD 1))
  else if s.firstBlock < 1 then
    some ("first_block_id must be at least 1, got " ++ toString s.firstBlock)
  else if !colorModes.contains s.color then
    some ("color must be auto, always or never, got " ++ Text.quote s.color)
  else if s.verbosity < 0 then some "log.verbosity must not be negative"
  else none

def ofText (source : String) : Except String Settings :=
  let decoded : Except String Settings := do
    let s ← Yaml.decodeText (decodeRecord settingsType {}) {} source
    match s.problem? with
    | some message => .error message
    | none => return s
  decoded.mapError ("invalid config: " ++ ·)

def ofFile (files : Files) (path : String) : Except String Settings := do
  let source ← (files.read (Path.ofText path)).mapError fun m => "failed to read config " ++ path ++ ": " ++ m
  (ofText source).mapError fun m => path ++ ": " ++ m

def boolText (b : Bool) : String := if b then "true" else "false"

def render (s : Settings) : String :=
  let manifests := if s.manifests.isEmpty then ["manifests: []\n"]
    else "manifests:\n" :: s.manifests.map fun m => "    - " ++ Yaml.writeLine 6 m
  String.join
    (["workers: " ++ toString (s.workers.getD 1) ++ "\n",
      "first_block_id: " ++ toString s.firstBlock ++ "\n",
      "enable_asserts: " ++ boolText s.enableAsserts ++ "\n",
      "stack_overflow_checks: " ++ boolText s.stackChecks ++ "\n",
      "color: " ++ Yaml.writeLine 4 s.color,
      "log:\n",
      "    verbosity: " ++ toString s.verbosity ++ "\n",
      "    file: " ++ Yaml.writeLine 8 s.logFile] ++ manifests)

end Settings

end Flowgraph
