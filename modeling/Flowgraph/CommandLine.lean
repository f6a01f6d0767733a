import Flowgraph.Session

/-! # Command line

The options of the command and what it prints: the graphs of the library in a
file, the failures, and a line that sums them up.
-/

namespace Flowgraph.CommandLine

/-! ## Options -/

structure Options where
  config : String := ""
  color : String := ""
  workers : Int := 0
  function : String := ""
  quiet : Bool := false
  stats : Bool := false
  operands : List String := []
  deriving DecidableEq, Repr

inductive Misuse
  | helpWanted
  | malformed (argument : String)
  | undefined (name : String)
  | valueMissing (name : String)
  | invalidBool (name value : String)
  | invalidInt (name value reason : String)
  | operandCount
  deriving DecidableEq, Repr

def usage : String :=
  "Usage: dil-cli [flags] <file.dil>\n" ++
  "  -color string\n    \tcolorize output: auto, always or never\n" ++
  "  -config string\n    \tYAML configuration file\n" ++
  "  -function string\n" ++
  "    \tprint only the graph of this function (e.g. ::main or Point::dist2)\n" ++
  "  -quiet\n    \tdo not print graphs\n" ++
  "  -stats\n    \tprint per-function opcode statistics\n" ++
  "  -workers int\n    \tnumber of functions lowered concurrently\n"

def Misuse.message : Misuse → String
  | helpWanted | operandCount => usage
  | malformed argument => "bad flag syntax: " ++ argument ++ "\n" ++ usage
  | undefined name => "flag provided but not defined: -" ++ name ++ "\n" ++ usage
  | valueMissing name => "flag needs an argument: -" ++ name ++ "\n" ++ usage
  | invalidBool name value =>
    "invalid boolean value " ++ Text.quote value ++ " for -" ++ name ++ ": parse error\n" ++ usage
  | invalidInt name value reason =>
    "invalid value " ++ Text.quote value ++ " for flag -" ++ name ++ ": " ++ reason ++ "\n" ++ usage

def Misuse.exitCode : Misuse → UInt32
  | helpWanted => 0
  | operandCount => 1
  | _ => 2

def readBool (name value : String) : Except Misuse Bool :=
  if ["1", "t", "T", "true", "TRUE", "True"].contains value then .ok true
  else if ["0", "f", "F", "false", "FALSE", "False"].contains value then .ok false
  else .error (.invalidBool name value)

def readInt (name value : String) : Except Misuse Int :=
  let (sign, digits) : Int × List Char := match value.toList with
    | '-' :: cs => (-1, cs)
    | '+' :: cs => (1, cs)
    | cs => (1, cs)
  match Decimal.readUnsigned digits with
  | .error .malformed => .error (.invalidInt name value "parse error")
  | .error .outOfRange => .error (.invalidInt name value "value out of range")
  | .ok n =>
    let n := sign * n
    if Decimal.fitsInt64 n then .ok n
    else .error (.invalidInt name value "value out of range")

/-- An option without its dashes: the name, and the value after an equals sign. -/
def splitOption (text : List Char) : String × Option String :=
  let name := String.ofList (text.takeWhile (· ≠ '='))
  match text.dropWhile (· ≠ '=') with
  | [] => (name, none)
  | _ :: value => (name, some (String.ofList value))

/-- Switches take a value only after an equals sign. -/
def isSwitch (name : String) : Bool := name = "quiet" || name = "stats"

def Options.setSwitch (o : Options) (name : String) (value : Bool) : Options :=
  if name = "quiet" then { o with quiet := value } else { o with stats := value }

def Options.set (o : Options) (name value : String) : Except Misuse Options :=
  match name with
  | "config" => .ok { o with config := value }
  | "color" => .ok { o with color := value }
  | "function" => .ok { o with function := value }
  | _ => return { o with workers := ← readInt name value }

def valueNames : List String := ["config", "color", "function", "workers"]

inductive Argument
  | operand
  | separator
  | switch (name : String) (value : Bool)
  | option (name : String) (value : Option String)

def readArgument (argument : String) : Except Misuse Argument :=
  match argument.toList with
  | ['-', '-'] => .ok .separator
  | '-' :: c :: cs => do
    let text := if c = '-' then cs else c :: cs
    if text.head? = some '-' || text.head? = some '=' then throw (.malformed argument)
    let (name, value?) := splitOption text
    if isSwitch name then
      match value? with
      | some value => return .switch name (← readBool name value)
      | none => return .switch name true
    if valueNames.contains name then return .option name value?
    if name = "help" || name = "h" then throw .helpWanted
    throw (.undefined name)
  | _ => .ok .operand

/-- Options stand before the operands and may be set off from them by two dashes. -/
def Options.ofArgs (o : Options) : List String → Except Misuse Options
  | [] => .ok o
  | argument :: rest => do
    match ← readArgument argument, rest with
    | .operand, rest => return { o with operands := argument :: rest }
    | .separator, rest => return { o with operands := rest }
    | .switch name value, rest => (o.setSwitch name value).ofArgs rest
    | .option name (some value), rest => (← o.set name value).ofArgs rest
    | .option name none, value :: rest => (← o.set name value).ofArgs rest
    | .option name none, [] => throw (.valueMissing name)
termination_by arguments => arguments.length

def parse (arguments : List String) : Except Misuse (Options × String) := do
  let o ← Options.ofArgs {} arguments
  match o.operands with
  | [path] => return (o, path)
  | _ => throw .operandCount

def Options.settings (o : Options) (files : Files) : Except String Settings := do
  let s ← if o.config = "" then pure {} else Settings.ofFile files o.config
  let s := { s with color := if o.color = "" then s.color else o.color
                    workers := if 0 < o.workers then some o.workers else s.workers }
  match s.problem? with
  | some message => throw ("invalid config: " ++ message)
  | none => return s

/-! ## Output -/

/-- What a run prints. The last line tells how long it took. -/
structure Output where
  text : String
  closing : String → String
  isFailure : Bool

def padRight (width : Nat) (s : String) : String := s ++ blanks (width - s.length)

def statsText (s : Graph.Stats) : String :=
  "  " ++ toString s.blocks ++ " blocks (" ++ toString s.joins ++ " joins, " ++
    toString s.targets ++ " targets, " ++ toString s.handlers ++ " catches), " ++
    toString s.loops ++ " loops, " ++ toString s.instructions ++ " instructions\n" ++
    "  " ++ toString s.throwing ++ " may throw, " ++ toString s.guarded ++ " of them guarded\n" ++
    String.join (s.counts.map fun (name, n) =>
      "  " ++ padRight 20 name ++ " " ++ toString n ++ "\n")

def graphText (o : Options) (color : Bool) (t : Symbols.Table) (r : Lowering.Result) : String :=
  match r.outcome with
  | .error _ => ""
  | .ok g =>
    if o.function ≠ "" && (t.function r.function).qualified ≠ o.function then ""
    else (if o.quiet then "" else g.render color t) ++
      if o.stats then statsText g.stats ++ "\n" else ""

def run (o : Options) (settings : Settings) (color : Bool) (files : Files) (path source : String) :
    Output :=
  let excerpt := Excerpt.ofSource path source
  let report (ds : List Diagnostic) : String := String.join (ds.map (excerpt.report color))
  let failed (text what : String) : Output :=
    { text, isFailure := true
      closing := fun time => Text.styled color [.red] (what ++ time ++ "\n") }
  let reading := Reading.ofSource path source
  match reading.accepted? false with
  | none => failed (report reading.diagnostics) "Reading failed after "
  | some library =>
    match Symbols.Table.ofProgram files settings.manifests (some library) with
    | .error e => failed (report [e.diagnostic .unknown]) "Symbol table construction failed after "
    | .ok t => match (Lowering.lowerProgram settings).run { table := t } with
      | (.error _, _) => failed "" "Lowering aborted after "
      | (.ok results, s) =>
        let failures := Lowering.failures results
        let summary := (Lowering.summarize s.table results).text
        { text := String.join (results.map (graphText o color s.table)) ++
            report (failures.map Failure.diagnostic)
          isFailure := !failures.isEmpty
          closing := fun time =>
            if failures.isEmpty then
              Text.styled color [.green]
                ("Successfully lowered " ++ path ++ " in " ++ time ++ ": " ++ summary ++ "\n")
            else
              Text.styled color [.red] ("Lowering failed after " ++ time ++ ": " ++ summary ++ "\n") }

/-! ## Durations -/

def fixedPlaces (places n unit : Nat) : String :=
  let grid := Nat.pow 10 places
  let scaled := (2 * n * grid + unit) / (2 * unit)
  let fraction := toString (scaled % grid)
  toString (scaled / grid) ++ "." ++
    String.ofList (List.replicate (places - fraction.length) '0') ++ fraction

def durationText (nanoseconds : Nat) : String :=
  if 60000000000 ≤ nanoseconds then fixedPlaces 2 nanoseconds 60000000000 ++ "min"
  else if 1000000000 ≤ nanoseconds then fixedPlaces 2 nanoseconds 1000000000 ++ "s"
  else if 1000000 ≤ nanoseconds then fixedPlaces 1 nanoseconds 1000000 ++ "ms"
  else if 1000 ≤ nanoseconds then fixedPlaces 1 nanoseconds 1000 ++ "μs"
  else toString nanoseconds ++ "ns"

end Flowgraph.CommandLine
