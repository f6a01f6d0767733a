import Flowgraph.Resolve.Body
import Flowgraph.Grammar.Match

/-! # Resolving libraries

Classes and library members are known before any body is resolved, so that
declarations can refer to later ones. The checks on declarations happen here.
-/

namespace Flowgraph.Resolve

def procedureKind : Surface.ProcedureKind → Tree.ProcedureKind
  | .method => .method
  | .get => .get
  | .set => .set
  | .factory => .factory

def keyword : Surface.ProcedureKind → String
  | .method => "fun"
  | .get => "get"
  | .set => "set"
  | .factory => "factory"

def takesOneParameter : Option Surface.Parameters → Bool
  | some (.mk _ [.required _]) => true
  | _ => false

def resolveSignature (place : Position) : Option Surface.Parameters → ResolveM Tree.Function
  | some params => resolveParameters params
  | none => return { id := ← freshId, place }

def resolveField (place : Position) (kind : Surface.VariableKind) (name : String)
    (isStatic : Bool) (value : Option Surface.Expr) : ResolveM Tree.Field := do
  let initializer ← inScope (resolveOption value)
  if kind = .const && initializer.isNone then
    reject place ("const field " ++ name ++ " needs an initializer")
  return { id := ← freshId, place, name, isStatic, isConst := kind = .const,
           isFinal := kind = .final, initializer }

def resolveProcedure (hasOwner : Bool) (place : Position) (kind : Surface.ProcedureKind)
    (name : String) (isStatic isExternal : Bool) (params : Option Surface.Parameters)
    (body : Surface.Body) : ResolveM (Option Tree.Procedure) := do
  if kind = .factory && !hasOwner then
    reject place ("factory " ++ name ++ " must be declared in a class")
    return none
  if name = "" && kind ≠ .factory then
    reject place (keyword kind ++ " declarations need a name")
    return none
  if kind = .set && !takesOneParameter params then
    reject place ("setter " ++ name ++ " must take exactly one required parameter")
  if kind = .get && params.isSome then
    report ((Diagnostic.ofCode .declaration place
      ("getter " ++ name ++ " cannot take parameters")).suggest
      ("declare it as 'get " ++ name ++ " => ...;'") "")
  let f ← function (resolveSignature place params) (resolveBody place isExternal body)
  return some { place, name, kind := procedureKind kind, isStatic, isExternal,
                function := some f }

def resolveInitializer (className super : String) : Surface.Initializer → ResolveM Tree.Initializer
  | .superCall place name args => return .superCall place ⟨super, name⟩ (← resolveArguments args)
  | .redirect place name args => return .redirect place ⟨className, name⟩ (← resolveArguments args)
  | .field place name value => return .field place name (← resolveExpr value)

def presentBody : Surface.Body → Surface.Body
  | .none place => .block (.mk place [])
  | body => body

def resolveConstructor (className super : String) (place : Position) (isConst : Bool)
    (name : String) (params : Surface.Parameters) (inits : List Surface.Initializer)
    (body : Surface.Body) : ResolveM Tree.Constructor := enclosed do
  let f ← resolveParameters params
  let initializers ← inits.mapM (resolveInitializer className super)
  let body ← resolveBody place false (presentBody body)
  return { place, name, isConst, function := { f with body }, initializers }

structure Members where
  fields : List Tree.Field := []
  constructors : List Tree.Constructor := []
  procedures : List Tree.Procedure := []

structure Owner where
  name : String
  super : String

def resolveMember (owner : Option Owner) (ms : Members) (m : Surface.Member) :
    ResolveM Members := do
  match m.shape with
  | .field place kind name value =>
    if m.isExternal then reject m.place ("field " ++ name ++ " cannot be external")
    let f ← resolveField place kind name m.isStatic value
    return { ms with fields := ms.fields ++ [f] }
  | .procedure place kind name params body =>
    match ← resolveProcedure owner.isSome place kind name m.isStatic m.isExternal params body with
    | some p => return { ms with procedures := ms.procedures ++ [p] }
    | none => return ms
  | .constructor place isConst name params inits body =>
    match owner with
    | none =>
      reject m.place "constructors must be declared in a class"
      return ms
    | some o =>
      if m.isStatic || m.isExternal then
        reject m.place "constructors cannot be static or external"
      let c ← resolveConstructor o.name o.super place isConst name params inits body
      return { ms with constructors := ms.constructors ++ [c] }

def memberName : Surface.MemberShape → String
  | .field _ _ name _ => name
  | .procedure _ _ name _ _ => name
  | .constructor .. => ""

/-- Make the classes and members of a library known. A class is declared once. -/
def announce : Surface.Declaration → ResolveM Unit
  | .classDecl c => do
    if ← isClass c.name then reject c.place ("class " ++ c.name ++ " is already declared")
    else modify fun s => { s with classes := s.classes ++ [(c.name, c.place)] }
  | .member m => modify fun s => { s with members := s.members ++ [memberName m.shape] }

def isAnnounced (c : Surface.ClassDecl) : ResolveM Bool :=
  return (← get).classes.any fun (name, place) => name = c.name && place = c.place

structure Contents where
  classes : List Tree.ClassDecl := []
  members : Members := {}

def resolveDeclaration (done : Contents) : Surface.Declaration → ResolveM Contents
  | .classDecl c => do
    if !(← isAnnounced c) then return done
    let ms ← c.members.foldlM (resolveMember (some ⟨c.name, c.super⟩)) {}
    let decl : Tree.ClassDecl :=
      { place := c.place, name := c.name, super := c.super, fields := ms.fields,
        constructors := ms.constructors, procedures := ms.procedures }
    return { done with classes := done.classes ++ [decl] }
  | .member m => return { done with members := ← resolveMember none done.members m }

def resolveProgram (p : Surface.Program) : ResolveM Tree.Library := do
  p.declarations.forM announce
  let done ← p.declarations.foldlM resolveDeclaration {}
  return { place := p.place, name := p.name, classes := done.classes,
           fields := done.members.fields, procedures := done.members.procedures,
           localConstants := (← get).localConstants, nodeCount := (← get).nextId }

end Flowgraph.Resolve

namespace Flowgraph

/-- What reading a source text gives. A text with diagnostics can still have a
library, in which what could not be resolved is marked invalid. -/
structure Reading where
  library? : Option Tree.Library
  diagnostics : List Diagnostic

namespace Reading

/-- Read a text, numbering its declarations from `first` on. -/
def ofSourceFrom (first : Nat) (file source : String) : Reading :=
  match Surface.parse file source with
  | .error d => ⟨none, [d]⟩
  | .ok program =>
    let (library, _, diagnostics) := Resolve.resolveProgram program { nextId := first }
    ⟨some library, diagnostics⟩

def ofSource (file source : String) : Reading := ofSourceFrom 0 file source

/-- The library, if nothing is wrong with its source or `lenient` accepts it as it is. -/
def accepted? (r : Reading) (lenient : Bool) : Option Tree.Library :=
  if lenient || r.diagnostics.isEmpty then r.library? else none

end Reading

end Flowgraph
