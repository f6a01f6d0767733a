import Flowgraph.Files
import Flowgraph.Symbols.Declare
import Flowgraph.Yaml.Decode

/-! # Written manifests

Manifests are YAML texts. Keys that mean nothing here are passed over.
-/

namespace Flowgraph.Symbols

open Yaml (Node Decode RecordType change decodeString decodeInt decodeBool decodeList decodeRecord)

def AccessKind.ofText : String → AccessKind
  | "getter" => .getter
  | "setter" => .setter
  | _ => .method

def text : Node → Decode (Option String) := decodeString "string"

def functionType : RecordType ManifestFunction where
  name := "symbols.ManifestFunction"
  isStrict := false
  field
    | "name" => some (change text fun f s => { f with name := s })
    | "kind" => some (change text fun f s => { f with access := .ofText s })
    | "static" => some (change decodeBool fun f b => { f with isStatic := b })
    | "const" => some (change decodeBool fun f b => { f with isConst := b })
    | "parameters" => some (change decodeInt fun f n => { f with parameters := n })
    | "optional" => some (change decodeInt fun f n => { f with optional := n })
    | "named" => some (change (decodeList "[]string" text) fun f ns => { f with named := ns })
    | "intrinsic" => some (change text fun f s => { f with intrinsic := s })
    | _ => none

def decodeManifestFunction : Node → Decode (Option ManifestFunction) := decodeRecord functionType {}

def fieldType : RecordType ManifestField where
  name := "symbols.ManifestField"
  isStrict := false
  field
    | "name" => some (change text fun f s => { f with name := s })
    | "static" => some (change decodeBool fun f b => { f with isStatic := b })
    | "const" => some (change decodeBool fun f b => { f with isConst := b })
    | "final" => some (change decodeBool fun f b => { f with isFinal := b })
    | _ => none

def decodeManifestField : Node → Decode (Option ManifestField) := decodeRecord fieldType {}

def fieldList : Node → Decode (Option (List ManifestField)) :=
  decodeList "[]symbols.ManifestField" decodeManifestField

def functionList : Node → Decode (Option (List ManifestFunction)) :=
  decodeList "[]symbols.ManifestFunction" decodeManifestFunction

def classType : RecordType ManifestClass where
  name := "symbols.ManifestClass"
  isStrict := false
  field
    | "name" => some (change text fun c s => { c with name := s })
    | "super" => some (change text fun c s => { c with super := s })
    | "fields" => some (change fieldList fun c fs => { c with fields := fs })
    | "constructors" => some (change functionList fun c fs => { c with constructors := fs })
    | "factories" => some (change functionList fun c fs => { c with factories := fs })
    | "methods" => some (change functionList fun c fs => { c with methods := fs })
    | _ => none

def decodeManifestClass : Node → Decode (Option ManifestClass) := decodeRecord classType {}

def classList : Node → Decode (Option (List ManifestClass)) :=
  decodeList "[]symbols.ManifestClass" decodeManifestClass

def manifestType : RecordType Manifest where
  name := "symbols.Manifest"
  isStrict := false
  field
    | "classes" => some (change classList fun m cs => { m with classes := cs })
    | "functions" => some (change functionList fun m fs => { m with functions := fs })
    | "fields" => some (change fieldList fun m fs => { m with fields := fs })
    | _ => none

def decodeManifest : Node → Decode (Option Manifest) := decodeRecord manifestType {}

def Manifest.ofText (source : String) : Except String Manifest :=
  match Yaml.decodeText decodeManifest {} source with
  | .error message => .error ("invalid manifest: " ++ message)
  | .ok m => m.checked

namespace Table

def loadManifestText (t : Table) (source : String) : Except String Table := do
  t.loadManifest (← Manifest.ofText source)

def loadManifestFile (t : Table) (files : Files) (path : String) : Except String Table := do
  let source ← (files.read (Path.ofText path)).mapError fun m => "failed to read manifest " ++ path ++ ": " ++ m
  (t.loadManifestText source).mapError fun m => path ++ ": " ++ m

def core : Table := (Table.loadManifest {} Manifest.core).toOption.getD {}

end Table

inductive LoadError
  | message (text : String)
  | failure (f : Failure)

def LoadError.diagnostic (place : Position) : LoadError → Diagnostic
  | message text => { message := text, position := place }
  | failure f => f.diagnostic

/-- The table of a program: the core library, the named manifests and the library. -/
def Table.ofProgram (files : Files) (manifests : List String) (library : Option Tree.Library) :
    Except LoadError Table := do
  let load (t : Table) (path : String) := t.loadManifestFile files path
  let t ← (manifests.foldlM load Table.core).mapError LoadError.message
  match library with
  | none => return t
  | some l => match t.addLibrary l with
    | (none, t) => return t
    | (some f, _) => .error (.failure f)

end Flowgraph.Symbols
