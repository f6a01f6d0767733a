import Flowgraph.Symbols.Basic

/-! # Manifests

Symbols that exist without a body: those of the core library and of libraries
that were compiled elsewhere.
-/

namespace Flowgraph.Symbols

inductive AccessKind
  | method
  | getter
  | setter
  deriving DecidableEq, Repr

structure ManifestFunction where
  name : String := ""
  access : AccessKind := .method
  isStatic : Bool := false
  isConst : Bool := false
  parameters : Int := 0
  optional : Int := 0
  named : List String := []
  intrinsic : String := ""

structure ManifestField where
  name : String := ""
  isStatic : Bool := false
  isConst : Bool := false
  isFinal : Bool := false

structure ManifestClass where
  name : String := ""
  super : String := ""
  fields : List ManifestField := []
  constructors : List ManifestFunction := []
  factories : List ManifestFunction := []
  methods : List ManifestFunction := []

structure Manifest where
  classes : List ManifestClass := []
  functions : List ManifestFunction := []
  fields : List ManifestField := []

namespace ManifestFunction

def info (m : ManifestFunction) (owner : Option String) : FunctionInfo :=
  let (kind, name) := match m.access with
    | .method => (FunctionKind.regular, m.name)
    | .getter => (.getter, getterName m.name)
    | .setter => (.setter, setterName m.name)
  { name, owner, kind, isStatic := m.isStatic, isConst := m.isConst, isExternal := true,
    intrinsic := m.intrinsic, positional := m.parameters + m.optional,
    required := m.parameters, named := m.named }

def creator (m : ManifestFunction) (kind : FunctionKind) (owner : String) : FunctionInfo :=
  { m.info (some owner) with
    name := constructorName owner m.name, kind, isStatic := m.isStatic || kind = .factory }

end ManifestFunction

namespace Table

def addField (t : Table) (f : FieldInfo) : Nat × Table :=
  let id := t.fields.size
  let classes := t.classes.map fun c =>
    if f.owner = some c.name then { c with fields := c.fields ++ [id] } else c
  (id, { t with classes, fields := t.fields.push f,
                fieldIndex := (⟨f.owner.getD "", f.name⟩, id) :: t.fieldIndex })

def addIndexedFunction (t : Table) (f : FunctionInfo) : Table :=
  let (id, t) := t.addFunction f
  { t with functionIndex := (⟨f.owner.getD "", f.name⟩, id) :: t.functionIndex }

def addCreator (t : Table) (name : String) (f : FunctionInfo) : Nat × Table :=
  let (id, t) := t.addFunction f
  (id, { t with constructorIndex := (⟨f.owner.getD "", name⟩, id) :: t.constructorIndex })

def addManifestField (owner : Option String) (t : Table) (m : ManifestField) : Table :=
  (t.addField { name := m.name, owner, isStatic := m.isStatic || owner.isNone,
                isConst := m.isConst, isFinal := m.isFinal || m.isConst }).2

def addManifestClass (t : Table) (m : ManifestClass) : Table :=
  let super := if m.super = "" then none else some m.super
  let t := { t with classes := t.classes ++ [{ name := m.name, super }] }
  let t := m.fields.foldl (addManifestField (some m.name)) t
  let t := m.constructors.foldl
    (fun t c => (t.addCreator c.name (c.creator .constructor m.name)).2) t
  let t := m.factories.foldl (fun t c => (t.addCreator c.name (c.creator .factory m.name)).2) t
  m.methods.foldl (fun t f => t.addIndexedFunction (f.info (some m.name))) t

end Table

def Manifest.problem? (m : Manifest) (t : Table) : Option String :=
  let names := m.classes.map (·.name)
  let again (seen : List String) : Option String :=
    m.classes.foldl
      (fun (state : List String × Option String) c => match state.2 with
        | some _ => state
        | none => if state.1.contains c.name then (state.1, some c.name)
          else (c.name :: state.1, none)) (seen, none) |>.2
  match again (t.classes.map (·.name)) with
  | some name => some ("class " ++ name ++ " is already defined")
  | none =>
    match m.classes.find? fun c =>
        c.super ≠ "" && !names.contains c.super && (t.class? c.super).isNone with
    | some c => some ("class " ++ c.name ++ " extends unknown class " ++ c.super)
    | none => none

/-- Add everything a manifest declares, or nothing. -/
def Table.loadManifest (t : Table) (m : Manifest) : Except String Table :=
  match m.problem? t with
  | some message => .error message
  | none =>
    let t := m.classes.foldl Table.addManifestClass t
    let t := m.functions.foldl
      (fun t f => t.addIndexedFunction { f.info none with isStatic := true }) t
    .ok (m.fields.foldl (Table.addManifestField none) t)

def Manifest.checked (m : Manifest) : Except String Manifest :=
  if m.classes.any (·.name = "") then .error "invalid manifest: class without a name"
  else if m.functions.any (·.name = "") then .error "invalid manifest: function without a name"
  else .ok m

end Flowgraph.Symbols
