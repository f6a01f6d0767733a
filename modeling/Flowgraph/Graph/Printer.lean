import Flowgraph.Graph.Basic
import Flowgraph.Text.Styled

/-! # Printing graphs

Two texts of a graph: one for reading, block by block, and one line for each
instruction with its links and effects.
-/

namespace Flowgraph

open Symbols (Table)
open Text (styled)

namespace Graph

def useText (c : Code) : Use → String
  | none => "<nil>"
  | some i => "v" ++ toString (c.get i).temp

def usesText (c : Code) (uses : List Use) : String :=
  String.intercalate ", " (uses.map (useText c))

def argumentsText (c : Code) (arguments : List Use) (names : List String) : String :=
  if arguments.isEmpty then ""
  else ", " ++ usesText c arguments ++
    if names.isEmpty then "" else ", names: [" ++ String.intercalate ", " names ++ "]"

def blockText (c : Code) (i : Nat) : String := "B" ++ toString (c.block i)

def Entry.text (e : Entry) : String :=
  let header := "B" ++ toString e.block ++ "[" ++ e.kind.word ++ "]" ++
    if e.tryIndex = noTry then "" else " try_idx " ++ toString e.tryIndex
  match e.kind with
  | .handler handles guards _ _ =>
    header ++ " handles " ++ toString handles ++
      if guards.isEmpty then "" else " (" ++ String.intercalate ", " guards ++ ")"
  | _ => header

def Op.operands (t : Table) (c : Code) : Op → String
  | entry _ => ""
  | constant v => v.render t
  | loadLocal var => var.name
  | storeLocal var v => var.name ++ ", " ++ useText c v
  | dropTemps n _ => toString n
  | pushArgument v | cloneContext v | booleanNegate v | createArray v | giveBack v | throw v =>
    useText c v
  | allocateObject className => className
  | allocateContext slots => toString slots
  | loadField object slot => useText c object ++ ", " ++ slot.text t
  | storeField object slot v =>
    useText c object ++ ", " ++ slot.text t ++ ", " ++ useText c v
  | loadStaticField field | initStaticField field => (t.field field).qualified
  | storeStaticField field v => (t.field field).qualified ++ ", " ++ useText c v
  | staticCall f arguments names => (t.function f).qualified ++ argumentsText c arguments names
  | instanceCall name arguments names => name ++ argumentsText c arguments names
  | strictCompare test left right =>
    useText c left ++ " " ++ test.text ++ " " ++ useText c right
  | storeIndexed array index v => usesText c [array, index, v]
  | checkStackOverflow depth => "depth: " ++ toString depth
  | rethrow exception stackTrace tryIndex =>
    usesText c [exception, stackTrace] ++ ", try: " ++ toString tryIndex
  | goto target => blockText c target
  | branch test left right yes no =>
    useText c left ++ " " ++ test.text ++ " " ++ useText c right ++ ", " ++ blockText c yes ++
      ", " ++ blockText c no

def instructionText (color : Bool) (t : Table) (c : Code) (i : Nat) : String :=
  let x := c.get i
  let name := styled color [.yellow] x.op.name
  let text := match x.op with
    | .entry e => if color then name ++ e.text else e.text
    | op => name ++ "(" ++ op.operands t c ++ ")"
  if x.op.isDefinition && x.temp ≠ 0 then
    styled color [.green] ("v" ++ toString x.temp) ++ " <- " ++ text
  else text

def blockLines (g : Graph) (color : Bool) (t : Table) (b : Nat) : List String :=
  let c := g.code
  let blocks (bs : List Nat) : String := String.intercalate ", " (bs.map (blockText c))
  let preds := g.predecessors b
  let header := ((c.asEntry b).map Entry.text).getD "" ++
    if preds.isEmpty then "" else " pred(" ++ blocks preds ++ ")"
  let rootLines := match c.op b with
    | .entry { kind := .graph _ _ defaults, .. } =>
      (if defaults.isEmpty then [] else
        ["    defaults [" ++ String.intercalate ", " (defaults.map (·.render t)) ++ "]"]) ++
        ["    succ(" ++ blocks (c.successors b) ++ ")"]
    | _ => []
  ["  " ++ styled color [.cyan, .bold] header] ++ rootLines ++
    (c.body b).map fun i => "    " ++ instructionText color t c i

def render (g : Graph) (color : Bool) (t : Table) : String :=
  let name := (g.function.map fun f => (t.function f).qualified).getD "<anonymous>"
  let kind := (g.function.map fun f => (t.function f).kind.text).getD "function"
  let header := "graph " ++ name ++ " (" ++ kind ++ ")"
  String.join ((header :: g.blocks.flatMap (g.blockLines color t)).map (· ++ "\n"))

def listingLine (g : Graph) (t : Table) (b i : Nat) : String :=
  let x := g.code.get i
  let input : Use → String
    | none => "-"
    | some j => toString j
  let neighbour (word : String) (j : Option Nat) : String :=
    (j.map fun j => " " ++ word ++ " " ++ toString j).getD ""
  blockText g.code b ++ " #" ++ toString i ++ " " ++ x.op.name ++ " v" ++ toString x.temp ++
    " in[" ++ String.intercalate " " (x.op.inputs.map input) ++ "]" ++
    neighbour "prev" x.previous ++ neighbour "next" x.next ++
    String.join (x.op.effects.map fun e => " " ++ e.text t) ++
    (if x.op.isPure then " P" else "") ++ if x.op.mayThrow then " T" else ""

def listing (g : Graph) (t : Table) : List String :=
  g.instructions.map fun (b, i) => g.listingLine t b i

end Graph

end Flowgraph
