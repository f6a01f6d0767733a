import Flowgraph.CommandLine

/-! # The command

Reads the files that a call names and prints what lowering gives.
-/

namespace Flowgraph.CommandLine

def readFiles (paths : List String) : IO Files :=
  paths.filterMapM fun (path : String) => do
    try return some (path, ← IO.FS.readFile path)
    catch _ => return none

def wantsColor (settings : Settings) : IO Bool := do
  if settings.color = "always" then return true
  if settings.color = "never" then return false
  let isPlain := (← IO.getEnv "NO_COLOR").any (· ≠ "") || (← IO.getEnv "TERM") = some "dumb"
  return !isPlain && (← (← IO.getStdout).isTty)

def lowerFile (o : Options) (path : String) : IO UInt32 := do
  match o.settings (← readFiles [o.config]) with
  | .error message =>
    IO.eprintln message
    return 1
  | .ok settings =>
    let color ← wantsColor settings
    let start ← IO.monoNanosNow
    let files ← readFiles (path :: settings.manifests)
    match files.read (Path.ofText path) with
    | .error message =>
      IO.eprintln ("failed to read file: " ++ message)
      return 1
    | .ok source =>
      let output := run o settings color files path source
      IO.print output.text
      IO.print (output.closing (durationText ((← IO.monoNanosNow) - start)))
      return if output.isFailure then 1 else 0

end Flowgraph.CommandLine

open Flowgraph.CommandLine in
def main (arguments : List String) : IO UInt32 := do
  match parse arguments with
  | .error misuse =>
    IO.eprint misuse.message
    return misuse.exitCode
  | .ok (options, path) => lowerFile options path
