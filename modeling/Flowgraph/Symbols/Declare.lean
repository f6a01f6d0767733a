import Flowgraph.Symbols.Core
import Flowgraph.Symbols.Lookup

/-! # Declaring libraries

The classes of a library are all known before their superclasses are looked up,
and a class without one extends the root class. Every field brings its accessors.
What was declared before an error stays declared.
-/

namespace Flowgraph.Symbols

abbrev DeclareM := ExceptT Failure (StateM Table)

def malformed (place : Position) (message : String) : Failure := .of .malformed place message

def changeTable (f : Table → Table) : DeclareM Unit := modify f

def announceClass (c : Tree.ClassDecl) : DeclareM Unit := do
  if ((← get).class? c.name).isSome then
    throw (malformed c.place ("class " ++ c.name ++ " is already defined"))
  changeTable fun t => { t with classes := t.classes ++ [{ name := c.name, decl := some c }] }

def superName (c : Tree.ClassDecl) : String :=
  if c.super = "" && c.name ≠ objectClass then objectClass else c.super

def linkClass (c : Tree.ClassDecl) : DeclareM Unit := do
  let super := superName c
  if super = "" then return
  let t ← get
  if (t.class? super).isNone then throw (t.unresolvedClass c.place super)
  changeTable fun t => { t with classes := t.classes.map fun k =>
    if k.name = c.name then { k with super := some super } else k }

def Table.isGrounded (t : Table) (name : String) : Bool :=
  match (t.chain name).getLast? with
  | some last => last.super.isNone
  | none => true

def checkClass (c : Tree.ClassDecl) : DeclareM Unit := do
  if !(← get).isGrounded c.name then
    throw (malformed c.place ("class " ++ c.name ++ " inherits from itself"))

def declareFunction (place : Position) (f : FunctionInfo) : DeclareM Unit := do
  let key : Tree.MemberRef := ⟨f.owner.getD "", f.name⟩
  if ((← get).functionIndex.get? key).isSome then
    throw (malformed place (qualify f.owner f.name ++ " is already defined"))
  changeTable fun t =>
    let (id, t) := t.addFunction f
    { t with functionIndex := (key, id) :: t.functionIndex, members := t.members ++ [id] }

def declareCreator (place : Position) (name : String) (f : FunctionInfo) : DeclareM Unit := do
  if ((← get).constructorIndex.get? ⟨f.owner.getD "", name⟩).isSome then
    throw (malformed place ("constructor " ++ f.name ++ " is already defined"))
  changeTable fun t =>
    let (id, t) := t.addCreator name f
    { t with members := t.members ++ [id] }

def declareField (owner : Option Tree.ClassDecl) (f : Tree.Field) : DeclareM Unit := do
  let ownerName := owner.map (·.name)
  if ((← get).fieldIndex.get? ⟨ownerName.getD "", f.name⟩).isSome then
    throw (malformed f.place ("field " ++ qualify ownerName f.name ++ " is already defined"))
  let isStatic := f.isStatic || owner.isNone
  let isFinal := f.isFinal || f.isConst
  let (id, t) := (← get).addField
    { name := f.name, owner := ownerName, isStatic, isConst := f.isConst, isFinal, decl := some f }
  set t
  let accessor (name : String) (kind : FunctionKind) : FunctionInfo :=
    { name, owner := ownerName, kind, isStatic, member := some (.field owner f),
      field := some id }
  declareFunction f.place (accessor (getterName f.name) .implicitGetter)
  if !isFinal then
    declareFunction f.place
      { accessor (setterName f.name) .implicitSetter with positional := 1, required := 1 }
  if isStatic && !f.isConst && f.initializer.isSome then
    declareFunction f.place (accessor (initializerName f.name) .staticInitializer)

def declareProcedure (owner : Option Tree.ClassDecl) (p : Tree.Procedure) : DeclareM Unit := do
  let ownerName := owner.map (·.name)
  let info (name : String) (kind : FunctionKind) : FunctionInfo := FunctionInfo.withParameters
    { name, owner := ownerName, kind, isStatic := p.isStatic || owner.isNone,
      isExternal := p.isExternal, body := p.function, member := some (.procedure owner p) }
  match p.kind, owner with
  | .method, _ => declareFunction p.place (info p.name .regular)
  | .get, _ => declareFunction p.place (info (getterName p.name) .getter)
  | .set, _ => declareFunction p.place (info (setterName p.name) .setter)
  | .factory, none =>
    throw (malformed p.place ("factory " ++ p.name ++ " must be declared in a class"))
  | .factory, some c =>
    declareCreator p.place p.name
      { info (constructorName c.name p.name) .factory with isStatic := true }

def declareConstructor (owner : Tree.ClassDecl) (c : Tree.Constructor) : DeclareM Unit :=
  let name := constructorName owner.name c.name
  declareCreator c.place c.name <| FunctionInfo.withParameters
    { name, owner := some owner.name, kind := .constructor, isConst := c.isConst,
      body := some c.function, member := some (.constructor owner c) }

def declareMembers (c : Tree.ClassDecl) : DeclareM Unit := do
  c.fields.forM (declareField (some c))
  c.constructors.forM (declareConstructor c)
  c.procedures.forM (declareProcedure (some c))

def Table.placeFields (t : Table) (name : String) : Table :=
  (t.instanceFields name).zipIdx.foldl
    (fun t (id, i) =>
      if (t.field id).owner = some name then
        { t with fields := t.fields.modify id fun f => { f with offset := i } }
      else t) t

def declareLibrary (l : Tree.Library) : DeclareM Unit := do
  l.classes.forM announceClass
  l.classes.forM linkClass
  l.classes.forM checkClass
  l.fields.forM (declareField none)
  l.procedures.forM (declareProcedure none)
  l.classes.forM declareMembers
  changeTable fun t => l.classes.foldl (fun t c => t.placeFields c.name) t

/-- Add a library, or as much of it as comes before the first error. -/
def Table.addLibrary (t : Table) (l : Tree.Library) : Option Failure × Table :=
  let t := { t with nodeCount := max t.nodeCount l.nodeCount,
                    localConstants := l.localConstants ++ t.localConstants }
  match (declareLibrary l).run.run t with
  | (.ok (), t) => (none, t)
  | (.error f, t) => (some f, t)

end Flowgraph.Symbols
