import Flowgraph.Tree.Basic

/-! # Outlines

The classes and members of a library as an editor lists them.
-/

namespace Flowgraph.Editor

inductive SymbolKind
  | type
  | method
  | property
  | field
  | constructor
  | function
  | global
  | constant
  deriving DecidableEq, Repr

def SymbolKind.number : SymbolKind → Nat
  | type => 5
  | method => 6
  | property => 7
  | field => 8
  | constructor => 9
  | function => 12
  | global => 13
  | constant => 14

structure Symbol where
  name : String
  kind : SymbolKind
  detail : Option String
  line : Nat
  start : Nat
  stop : Nat
  children : List Symbol

def Symbol.named (place : Position) (name : String) (kind : SymbolKind)
    (detail : Option String := none) (children : List Symbol := []) : Symbol :=
  let start := (place.column - 1).toNat
  { name, kind, detail, line := (place.line - 1).toNat, start
    stop := start + name.utf8ByteSize, children }

def fieldSymbol (isGlobal : Bool) (f : Tree.Field) : Symbol :=
  .named f.place f.name (if f.isConst then .constant else if isGlobal then .global else .field)

def procedureSymbol (kind : SymbolKind) (p : Tree.Procedure) : Symbol :=
  let kind := if p.kind = .get || p.kind = .set then .property else kind
  .named p.place p.name kind (some ((if p.isStatic then "static " else "") ++ p.kind.text))

def constructorSymbol (className : String) (c : Tree.Constructor) : Symbol :=
  .named c.place (if c.name = "" then className else className ++ "." ++ c.name) .constructor

def classSymbol (c : Tree.ClassDecl) : Symbol :=
  .named c.place c.name .type none
    (c.fields.map (fieldSymbol false) ++ c.constructors.map (constructorSymbol c.name) ++
      c.procedures.map (procedureSymbol .method))

def outline (l : Tree.Library) : List Symbol :=
  l.classes.map classSymbol ++ l.fields.map (fieldSymbol true) ++
    l.procedures.map (procedureSymbol .function)

end Flowgraph.Editor
