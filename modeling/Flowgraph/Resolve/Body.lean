import Flowgraph.Resolve.State
import Flowgraph.Surface.Basic
import Flowgraph.Decimal.Numeral
import Flowgraph.Text.Quoted

/-! # Resolving bodies

Surface expressions and statements become trees: locals are bound to their
declarations, other names to members or classes, and operators to method calls
on their left operand.
-/

namespace Flowgraph.Resolve

open Flowgraph.Tree (Ref)
open Surface (Primary Suffix Argument StringPart ParameterGroup Declarator CaseTest)

def invoke (place : Position) (receiver : Tree.Expr) (name : String) (args : List Tree.Expr) :
    Tree.Expr :=
  .methodCall place receiver name ⟨args, []⟩

def identical (place : Position) (left right : Tree.Expr) : Tree.Expr :=
  .staticCall place { name := "identical" } ⟨[left, right], []⟩ false

/-- Comparisons by `!=`, `===` and `!==` have forms of their own. -/
def binary (place : Position) (op : String) (left right : Tree.Expr) : Tree.Expr :=
  match op with
  | "!=" => .not place (invoke place left "==" [right])
  | "===" => identical place left right
  | "!==" => .not place (identical place left right)
  | op => invoke place left op [right]

/-- A minus in front of a literal belongs to the literal. -/
def unary (place : Position) (op : String) (operand : Tree.Expr) : Tree.Expr :=
  match op, operand with
  | "!", _ => .not place operand
  | "-", .int p value => .int p (-value)
  | "-", .double p value => .double p (-value)
  | "-", _ => invoke place operand "unary-" []
  | op, _ => invoke place operand op []

def logicalOp : Surface.LogicalOp → Tree.LogicalOp
  | .and => .and
  | .or => .or
  | .ifNull => .ifNull

def integer (place : Position) (text : String) : ResolveM Tree.Expr :=
  match Decimal.readInteger text with
  | .ok value => return .int place value
  | .error e => do
    report { Diagnostic.ofCode .grammar place ("integer literal " ++ text ++ " is out of range") with
      length := text.utf8ByteSize }
    return .invalid place
      ("strconv.ParseInt: parsing " ++ Text.quote text ++ ": " ++ e.message)

def unescape (s : String) : String :=
  match s.toList with
  | [_, 'n'] => "\n"
  | [_, 't'] => "\t"
  | [_, 'r'] => "\r"
  | [_, '0'] => "\x00"
  | cs => String.ofList cs.tail

/-- The parts of a string literal read so far: finished ones, and the text that
is still growing with the place where it started. -/
structure Pieces where
  done : List Tree.Expr := []
  text : String := ""
  textPlace : Position
  isInterpolated : Bool := false

def Pieces.flush (p : Pieces) : Pieces :=
  if p.text = "" then p
  else { p with done := p.done ++ [.string p.textPlace p.text], text := "" }

def Pieces.expr (p : Pieces) (place : Position) : Tree.Expr :=
  let done := p.flush.done
  if p.isInterpolated then .concat place done else done.headD (.string place "")

def invalidTarget (place : Position) : ResolveM Tree.Expr := do
  reject place "invalid assignment target"
  return .invalid place "invalid assignment target"

def assignVariable (place : Position) (headPlace : Position) (name : String)
    (value : Tree.Expr) : ResolveM Tree.Expr := do
  match ← lookup name with
  | some b =>
    if b.isFixed then reject place ("cannot assign to final variable " ++ b.ref.name)
    return .set place b.ref value
  | none =>
    if ← isMember name then return .staticSet place { name } value
    undeclared headPlace name
    return .invalid place ("undeclared identifier " ++ name)

inductive LastSuffix
  | member (className name : String)
  | index
  | other

def lastSuffix (suffixes : List Suffix) : LastSuffix :=
  match suffixes.getLast? with
  | some (.member _ name none) => .member "" name
  | some (.direct _ className name none) => .member className name
  | some (.index ..) => .index
  | _ => .other

structure CaseHead where
  id : Nat
  place : Position
  label : String
  tests : List Tree.Expr
  isDefault : Bool

def labelled (heads : List CaseHead) : List (String × Ref) :=
  heads.foldl (fun known h =>
    if h.label = "" then known
    else known.filter (·.1 ≠ h.label) ++ [(h.label, ⟨h.id, h.label⟩)]) []

structure ParameterLists where
  positional : List Tree.Declaration := []
  required : Nat := 0
  named : List Tree.Declaration := []
  hasOptional : Bool := false

def followsOptional (place : Position) (name : String) : ResolveM Unit :=
  reject place ("required parameter " ++ name ++ " follows optional parameters")

def secondGroup : List Surface.Parameter → ResolveM Unit
  | .mk place _ _ :: _ => reject place "only one group of optional parameters is allowed"
  | [] => pure ()

def isLoop : Surface.Stmt → Bool
  | .whileDo .. | .doWhile .. | .forIn .. | .forLoop .. => true
  | _ => false

/-- What stands in front of a suffix: a value, or a name that is no local
variable and whose meaning the first suffix decides. -/
inductive Head
  | value (e : Tree.Expr)
  | static (place : Position) (name : String)

def Head.expr : Head → ResolveM Tree.Expr
  | .value e => return e
  | .static place name => do
    if ← isMember name then return .staticGet place { name }
    if (← isClass name) || isTypeName name then return .typeLit place name
    undeclared place name
    return .invalid place ("undeclared identifier " ++ name)

/-- The class a member suffix selects from, for a name that is no library member. -/
def Head.owner? : Head → ResolveM (Option (Position × String))
  | .value _ => return none
  | .static place name => do
    if ← isMember name then return none else return some (place, name)

def checkLabel (place : Position) (label : String) : ResolveM Unit := do
  for t in (← get).targets.reverse do
    if t.label = label then reject place ("label " ++ label ++ " is already in use")

def nested (place : Position) (body : ResolveM (List Tree.Stmt)) : ResolveM Tree.Stmt := do
  match ← inScope body with
  | [one] => return one
  | statements => return .block (← freshId) place statements

def loopBody (loopName : String) (place : Position) (body : ResolveM (List Tree.Stmt)) :
    ResolveM (Tree.Stmt × Target) := do
  let (stmt, t) ← targeted { isLoop := true, loopName } (nested place body)
  return (wrapContinue t place stmt, t)

def function (parameters : ResolveM Tree.Function) (body : ResolveM (Option Tree.Stmt)) :
    ResolveM Tree.Function := enclosed do
  let f ← parameters
  return { f with body := ← body }

def parameter (place : Position) (name : String) (default : ResolveM (Option Tree.Expr)) :
    ResolveM Tree.Declaration := do
  let id ← freshId
  let initializer ← default
  let d : Tree.Declaration := { id, place, name, initializer }
  declare d
  return d

def catchVariable (binding : Option Surface.CatchBinding)
    (name : Surface.CatchBinding → String) : ResolveM (Option Tree.Declaration) := do
  match binding with
  | none => return none
  | some b =>
    if name b = "" then return none
    let d : Tree.Declaration :=
      { id := ← freshId, place := b.place, name := name b, isFinal := true }
    declare d
    return some d

mutual

def resolveExpr : Surface.Expr → ResolveM Tree.Expr
  | .assign place target value => do
    let value ← resolveExpr value
    resolveAssign place value target
  | .conditional place condition yes no => do
    let condition ← resolveExpr condition
    let yes ← resolveExpr yes
    return .conditional place condition yes (← resolveExpr no)
  | .logical place op left right => do
    let left ← resolveExpr left
    return .logical place (logicalOp op) left (← resolveExpr right)
  | .binary place op left right => do
    let left ← resolveExpr left
    return binary place op left (← resolveExpr right)
  | .isType place operand className => return .isType place (← resolveExpr operand) className
  | .asType place operand className => return .asType place (← resolveExpr operand) className
  | .unary place op operand => return unary place op (← resolveExpr operand)
  | .chain head suffixes => do
    let head ← resolveHead head
    resolveSuffixes head suffixes suffixes.length

def resolveOption : Option Surface.Expr → ResolveM (Option Tree.Expr)
  | none => return none
  | some e => return some (← resolveExpr e)

def resolveExprs : List Surface.Expr → ResolveM (List Tree.Expr)
  | [] => return []
  | e :: es => do
    let e ← resolveExpr e
    return e :: (← resolveExprs es)

def resolveAssign (place : Position) (value : Tree.Expr) : Surface.Expr → ResolveM Tree.Expr
  | .chain (.ident headPlace name) [] => assignVariable place headPlace name value
  | .chain head suffixes => do
    match lastSuffix suffixes with
    | .member className member =>
      let head ← resolveHead head
      if suffixes.length = 1 && className = "" then
        if let some (_, owner) ← head.owner? then
          return .staticSet place ⟨owner, member⟩ value
      let receiver ← resolveSuffixes head suffixes (suffixes.length - 1)
      if className = "" then return .propertySet place receiver member value
      return .directSet place receiver ⟨className, member⟩ value
    | .index =>
      let head ← resolveHead head
      let receiver ← resolveSuffixes head suffixes (suffixes.length - 1)
      return invoke place receiver "[]=" [← resolveLastIndex suffixes, value]
    | .other => invalidTarget place
  | _ => invalidTarget place

def resolveLastIndex : List Suffix → ResolveM Tree.Expr
  | [] => return .absent
  | [.index _ index] => resolveExpr index
  | _ :: rest => resolveLastIndex rest

def resolveSuffixes (head : Head) : List Suffix → Nat → ResolveM Tree.Expr
  | s :: rest, count + 1 => do
    let e ← resolveSuffix head s
    resolveSuffixes (.value e) rest count
  | [], _ => head.expr
  | _, 0 => head.expr

def resolveSuffix (head : Head) : Suffix → ResolveM Tree.Expr
  | .direct place className name args => do
    let e ← head.expr
    if args.isSome then
      reject place (className ++ "::" ++ name ++ " can only be read or written")
    return .directGet place e ⟨className, name⟩
  | .member place name (some args) => do
    match ← head.owner? with
    | some (headPlace, owner) =>
      return .staticCall headPlace ⟨owner, name⟩ (← resolveArguments args) false
    | none =>
      let e ← head.expr
      return .methodCall place e name (← resolveArguments args)
  | .member place name none => do
    match ← head.owner? with
    | some (headPlace, owner) => return .staticGet headPlace ⟨owner, name⟩
    | none => return .propertyGet place (← head.expr) name
  | .call place args => do
    match head with
    | .static headPlace name =>
      return .staticCall headPlace { name } (← resolveArguments args) false
    | .value e => return .methodCall place e "call" (← resolveArguments args)
  | .index place index => do
    let e ← head.expr
    return invoke place e "[]" [← resolveExpr index]

def resolveHead : Primary → ResolveM Head
  | .ident place name => do
    match ← lookup name with
    | some b => return .value (.get place b.ref)
    | none => return .static place name
  | .null place => return .value (.null place)
  | .bool place value => return .value (.bool place value)
  | .this place => return .value (.this place)
  | .float place value => return .value (.double place value)
  | .integer place text => return .value (← integer place text)
  | .string place parts =>
    return .value ((← resolveParts { textPlace := place } parts).expr place)
  | .symbol place name => return .value (.symbol place name)
  | .typeName place name => return .value (.typeLit place name)
  | .new place className name args =>
    return .value (.construct place ⟨className, name⟩ (← resolveArguments args) false)
  | .constNew place target name args => do
    let args ← resolveArguments args
    if (← isClass target) || isTypeName target then
      return .value (.construct place ⟨target, name⟩ args true)
    let ref : Tree.MemberRef := if name = "" then { name := target } else ⟨target, name⟩
    return .value (.staticCall place ref args true)
  | .list place isConst elements =>
    return .value (.list place (← resolveExprs elements) isConst)
  | .map place isConst entries => return .value (.map place (← resolveEntries entries) isConst)
  | .function place params body =>
    return .value (.function place
      (← function (resolveParameters params) (resolveBody place false body)))
  | .letIn place name value body => do
    let value ← resolveExpr value
    inScope do
      let decl : Tree.Declaration :=
        { id := ← freshId, place, name, initializer := some value, isFinal := true }
      declare decl
      return .value (.letIn place decl (← resolveExpr body))
  | .throw place value => return .value (.throw place (← resolveExpr value))
  | .rethrow place => return .value (.rethrow place)
  | .paren _ inner => return .value (← resolveExpr inner)

def resolveParts (p : Pieces) : List StringPart → ResolveM Pieces
  | [] => return p
  | .chars _ text :: rest => resolveParts { p with text := p.text ++ text } rest
  | .escaped _ text :: rest => resolveParts { p with text := p.text ++ unescape text } rest
  | .interpolation place value :: rest => do
    let p := p.flush
    let value ← resolveExpr value
    resolveParts { p with done := p.done ++ [value], textPlace := place, isInterpolated := true }
      rest

def resolveEntries : List Surface.MapEntry → ResolveM (List Tree.MapEntry)
  | [] => return []
  | .mk key value :: rest => do
    let key ← resolveExpr key
    let value ← resolveExpr value
    return ⟨key, value⟩ :: (← resolveEntries rest)

def resolveArguments : Surface.Arguments → ResolveM Tree.Arguments
  | .mk _ items => resolveItems {} items

def resolveItems (args : Tree.Arguments) : List Argument → ResolveM Tree.Arguments
  | [] => return args
  | .mk place name value :: rest => do
    let value ← resolveExpr value
    if name = "" then
      if !args.named.isEmpty then reject place "positional argument follows named arguments"
      resolveItems { args with positional := args.positional ++ [value] } rest
    else
      if args.names.contains name then
        reject place ("named argument " ++ name ++ " is passed twice")
      resolveItems { args with named := args.named ++ [⟨name, value⟩] } rest

def resolveParameters : Surface.Parameters → ResolveM Tree.Function
  | .mk place groups => do
    let id ← freshId
    let lists ← resolveGroups {} groups
    return ⟨id, place, lists.positional, lists.required, lists.named, none⟩

def resolveGroups (lists : ParameterLists) : List ParameterGroup → ResolveM ParameterLists
  | [] => return lists
  | .required (.mk place name default) :: rest => do
    if lists.hasOptional then followsOptional place name
    let d ← parameter place name (resolveOption default)
    resolveGroups
      { lists with positional := lists.positional ++ [d], required := lists.required + 1 } rest
  | .optional params :: rest => do
    if lists.hasOptional then secondGroup params
    let ds ← resolveParameterList params
    resolveGroups { lists with positional := lists.positional ++ ds, hasOptional := true } rest
  | .named params :: rest => do
    if lists.hasOptional then secondGroup params
    let ds ← resolveParameterList params
    resolveGroups { lists with named := lists.named ++ ds, hasOptional := true } rest

def resolveParameterList : List Surface.Parameter → ResolveM (List Tree.Declaration)
  | [] => return []
  | .mk place name default :: rest => do
    let d ← parameter place name (resolveOption default)
    return d :: (← resolveParameterList rest)

def resolveBody (place : Position) (isExternal : Bool) :
    Surface.Body → ResolveM (Option Tree.Stmt)
  | .block body => do
    let body ← resolveBlock body
    if isExternal then reject place "external declarations cannot have a body"
    return some body
  | .arrow arrowPlace value => do
    let value ← resolveExpr value
    if isExternal then reject place "external declarations cannot have a body"
    return some (.giveBack arrowPlace (some value))
  | .none _ => do
    if !isExternal then
      report ((Diagnostic.ofCode .declaration place "missing body").suggest
        "mark the declaration 'external' if it is provided by the runtime" "")
    return none

def resolveBlock : Surface.Block → ResolveM Tree.Stmt
  | .mk place statements => do
    let id ← freshId
    return .block id place (← inScope (resolveStmts statements))

def resolveStmts : List Surface.Stmt → ResolveM (List Tree.Stmt)
  | [] => return []
  | s :: rest => do
    let s ← resolveStmt "" s
    return s ++ (← resolveStmts rest)

def resolveElse : Option Surface.Stmt → ResolveM (Option Tree.Stmt)
  | none => return none
  | some s => return some (← nested s.place (resolveStmt "" s))

/-- A statement. `loopLabel` is the label directly in front of a loop. -/
def resolveStmt (loopLabel : String) : Surface.Stmt → ResolveM (List Tree.Stmt)
  | .block body => return [← resolveBlock body]
  | .empty place => return [.empty place]
  | .declare _ kind declarators => resolveDeclarators kind declarators
  | .function place name params body => do
    let decl : Tree.Declaration := { id := ← freshId, place, name, isFinal := true }
    declare decl
    let f ← function (resolveParameters params) (resolveBody place false body)
    return [.function place decl f]
  | .branch place condition yes no => do
    let condition ← resolveExpr condition
    let yes ← nested yes.place (resolveStmt "" yes)
    let no ← resolveElse no
    return [.branch place condition yes no]
  | .whileDo place condition body => do
    let condition ← resolveExpr condition
    let (body, t) ← loopBody loopLabel body.place (resolveStmt "" body)
    return [wrapBreak t (.whileDo place condition body)]
  | .doWhile place body condition => do
    let (body, t) ← loopBody loopLabel body.place (resolveStmt "" body)
    let condition ← resolveExpr condition
    return [wrapBreak t (.doWhile place body condition)]
  | .forIn place varPlace kind name iterable body => do
    let iterable ← resolveExpr iterable
    inScope do
      let decl : Tree.Declaration :=
        { id := ← freshId, place := varPlace, name, isFinal := kind = .final }
      declare decl
      let id ← freshId
      let (body, t) ← loopBody loopLabel body.place (resolveStmt "" body)
      return [wrapBreak t (.forIn id place decl iterable body)]
  | .forLoop place kind init condition updates body => inScope do
    let id ← freshId
    let vars ← resolveLoopVariables kind init
    let condition ← resolveOption condition
    let updates ← resolveExprs updates
    let (body, t) ← loopBody loopLabel body.place (resolveStmt "" body)
    return [wrapBreak t (.forLoop id place vars condition updates body)]
  | .switch place subject cases => do
    let subject ← resolveExpr subject
    let heads ← resolveCaseHeads [] cases
    let (cases, t) ←
      targeted { isSwitch := true, cases := labelled heads } (resolveCaseBodies heads cases)
    return [wrapBreak t (.switch place subject cases)]
  | .breakOut place label => return [← breakStmt place label]
  | .continueOn place label => return [← continueStmt place label]
  | .giveBack place value => return [.giveBack place (← resolveOption value)]
  | .attempt place body catches finalizer => do
    if catches.isEmpty && finalizer.isNone then
      reject place "try needs a catch or finally clause"
    let body ← resolveBlock body
    let clauses ← resolveCatches catches
    let inner : Tree.Stmt := if catches.isEmpty then body else .tryCatch place body clauses
    match ← resolveFinalizer finalizer with
    | none => return [inner]
    | some finalizer => return [.tryFinally place inner finalizer]
  | .assert place condition message => do
    let condition ← resolveExpr condition
    return [.assert place condition (← resolveOption message)]
  | .yield place value => return [.yield place (← resolveExpr value)]
  | .labeled place label body => do
    checkLabel place label
    let id ← freshId
    let inside ← targeted { label, breakTo := some ⟨id, label⟩ }
      (nested body.place (resolveStmt (if isLoop body then label else "") body))
    return [.labeled id place label inside.1]
  | .expr place value => return [.expr place (← resolveExpr value)]

def resolveFinalizer : Option Surface.Block → ResolveM (Option Tree.Stmt)
  | none => return none
  | some b => return some (← resolveBlock b)

def resolveDeclarators (kind : Surface.VariableKind) :
    List Declarator → ResolveM (List Tree.Stmt)
  | [] => return []
  | .mk place name value :: rest => do
    let id ← freshId
    let initializer ← resolveOption value
    let decl : Tree.Declaration :=
      { id, place, name, initializer, isConst := kind = .const, isFinal := kind = .final }
    if decl.isConst && initializer.isNone then
      reject place ("const variable " ++ name ++ " needs an initializer")
    declare decl
    noteConstant decl
    return .declare decl :: (← resolveDeclarators kind rest)

def resolveLoopVariables (kind : Surface.VariableKind) :
    List Declarator → ResolveM (List Tree.Declaration)
  | [] => return []
  | .mk place name value :: rest => do
    let id ← freshId
    let initializer ← resolveOption value
    let decl : Tree.Declaration := { id, place, name, initializer, isFinal := kind = .final }
    declare decl
    return decl :: (← resolveLoopVariables kind rest)

/-- All cases exist before any body is resolved, so that jumps can go forward. -/
def resolveCaseHeads (labels : List String) :
    List Surface.SwitchCase → ResolveM (List CaseHead)
  | [] => return []
  | .mk place label tests _ :: rest => do
    let id ← freshId
    if label ≠ "" && labels.contains label then
      reject place ("case label " ++ label ++ " is already in use")
    let (tests, isDefault) ← resolveTests tests
    return ⟨id, place, label, tests, isDefault⟩ :: (← resolveCaseHeads (label :: labels) rest)

def resolveTests : List CaseTest → ResolveM (List Tree.Expr × Bool)
  | [] => return ([], false)
  | .default :: rest => return ((← resolveTests rest).1, true)
  | .value test :: rest => do
    let test ← resolveExpr test
    let (tests, isDefault) ← resolveTests rest
    return (test :: tests, isDefault)

def resolveCaseBodies (heads : List CaseHead) :
    List Surface.SwitchCase → ResolveM (List Tree.SwitchCase)
  | [] => return []
  | .mk place _ _ body :: rest => do
    let id ← freshId
    let body : Tree.Stmt := .block id place (← inScope (resolveStmts body))
    let cases ← resolveCaseBodies heads.tail rest
    match heads with
    | [] => return cases
    | h :: _ => return ⟨h.id, h.place, h.label, h.tests, h.isDefault, body⟩ :: cases

def resolveCatches : List Surface.CatchClause → ResolveM (List Tree.CatchClause)
  | [] => return []
  | .mk place guard binding body :: rest => do
    let clause : Tree.CatchClause ← inScope do
      let id ← freshId
      let exception ← catchVariable binding (·.exception)
      let stackTrace ← catchVariable binding (·.stackTrace)
      return ⟨id, place, guard, exception, stackTrace, ← resolveBlock body⟩
    return clause :: (← resolveCatches rest)

end

end Flowgraph.Resolve
