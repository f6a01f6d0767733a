import Flowgraph.Surface.Basic
import Flowgraph.Grammar.Pattern
import Flowgraph.Decimal.Numeral

/-! # Pieces of surface syntax

What a matched rule turns into, built from the tokens and pieces it keeps.
-/

namespace Flowgraph.Surface

open Grammar (Rule Slot)

/-- The value of a matched rule. Rules that only group others have pieces of
their own, which the rule above takes apart. -/
inductive Piece
  | program (p : Program)
  | declaration (d : Declaration)
  | classDecl (c : ClassDecl)
  | member (m : Member)
  | shape (s : MemberShape)
  | initializer (i : Initializer)
  | delegation (name : String) (args : Arguments)
  | body (b : Body)
  | parameters (p : Parameters)
  | group (g : ParameterGroup)
  | parameter (p : Parameter)
  | block (b : Block)
  | stmt (s : Stmt)
  | declarator (d : Declarator)
  | forIn (place : Position) (kind : VariableKind) (name : String) (iterable : Expr)
  | forLoop (kind : VariableKind) (init : List Declarator) (condition : Option Expr)
      (updates : List Expr)
  | switchCase (c : SwitchCase)
  | caseTest (t : CaseTest)
  | label (name : String)
  | catchClause (c : CatchClause)
  | binding (b : CatchBinding)
  | expr (e : Expr)
  | operation (place : Position) (op : String) (right : Expr)
  | suffix (s : Suffix)
  | memberSuffix (className name : String) (args : Option Arguments)
  | primary (p : Primary)
  | part (p : StringPart)
  | entry (e : MapEntry)
  | arguments (a : Arguments)
  | argument (a : Argument)

inductive Part
  | token (t : Token)
  | piece (p : Piece)

abbrev Kept := List (Slot × Part)

namespace Kept

def tokens (k : Kept) (slot : Slot) : List Token :=
  k.filterMap fun
    | (s, .token t) => if s = slot then some t else none
    | _ => none

def pieces (k : Kept) (slot : Slot) : List Piece :=
  k.filterMap fun
    | (s, .piece p) => if s = slot then some p else none
    | _ => none

def has (k : Kept) (slot : Slot) : Bool := !(k.tokens slot).isEmpty

def text (k : Kept) (slot : Slot) : String := String.join ((k.tokens slot).map Token.text)

def exprs (k : Kept) (slot : Slot) : List Expr :=
  (k.pieces slot).filterMap fun | .expr e => some e | _ => none

def expr? (k : Kept) (slot : Slot) : Option Expr := (k.exprs slot).head?

def expr (k : Kept) (slot : Slot) : Expr := (k.expr? slot).getD default

def arguments? (k : Kept) (slot : Slot) : Option Arguments :=
  (k.pieces slot).findSome? fun | .arguments a => some a | _ => none

def arguments (k : Kept) (slot : Slot) : Arguments := (k.arguments? slot).getD default

def parameters? (k : Kept) (slot : Slot) : Option Parameters :=
  (k.pieces slot).findSome? fun | .parameters p => some p | _ => none

def parameters (k : Kept) (slot : Slot) : Parameters := (k.parameters? slot).getD default

def body (k : Kept) (slot : Slot) : Body :=
  ((k.pieces slot).findSome? fun | .body b => some b | _ => none).getD default

def block? (k : Kept) (slot : Slot) : Option Block :=
  (k.pieces slot).findSome? fun | .block b => some b | _ => none

def block (k : Kept) (slot : Slot) : Block := (k.block? slot).getD default

def stmts (k : Kept) (slot : Slot) : List Stmt :=
  (k.pieces slot).filterMap fun | .stmt s => some s | _ => none

def stmt (k : Kept) (slot : Slot) : Stmt := ((k.stmts slot).head?).getD default

def label (k : Kept) (slot : Slot) : String :=
  ((k.pieces slot).findSome? fun | .label l => some l | _ => none).getD ""

def declarators (k : Kept) (slot : Slot) : List Declarator :=
  (k.pieces slot).filterMap fun | .declarator d => some d | _ => none

def params (k : Kept) (slot : Slot) : List Parameter :=
  (k.pieces slot).filterMap fun | .parameter p => some p | _ => none

def primary? (k : Kept) (slot : Slot) : Option Primary :=
  (k.pieces slot).findSome? fun | .primary p => some p | _ => none

def variableKind (k : Kept) : VariableKind :=
  match k.text .kind with
  | "final" => .final
  | "const" => .const
  | _ => .var

def procedureKind (k : Kept) : ProcedureKind :=
  match k.text .kind with
  | "get" => .get
  | "set" => .set
  | "factory" => .factory
  | _ => .method

/-- Binary operators of one level group to the left. -/
def operations (k : Kept) : Expr :=
  (k.pieces .rest).foldl (fun left p =>
    match p with
    | .operation place op right => .binary place op left right
    | _ => left) (k.expr .left)

def logical (k : Kept) (place : Position) (op : LogicalOp) : Expr :=
  (k.exprs .rest).foldl (fun left right => .logical place op left right) (k.expr .left)

end Kept

structure BadNumeral where
  token : Token
  cause : Decimal.NumeralError
  deriving DecidableEq, Repr

def buildMember (place : Position) (k : Kept) : Piece :=
  let shape? := k.findSome? fun | (_, .piece (.shape s)) => some s | _ => none
  match shape? with
  | some shape => .member ⟨place, k.has .isStatic, k.has .isExternal, shape⟩
  | none => .label ""

def buildStatement (place : Position) (k : Kept) : Stmt :=
  match k.block? .block, k.stmts .variable ++ k.stmts .function ++ k.stmts .branch ++
      k.stmts .while ++ k.stmts .doWhile ++ k.stmts .for ++ k.stmts .switch ++ k.stmts .return ++
      k.stmts .try ++ k.stmts .assert ++ k.stmts .labeled with
  | some b, _ => .block b
  | none, s :: _ => s
  | none, [] =>
    if k.has .empty then .empty place
    else if !(k.pieces .break).isEmpty then .breakOut place (k.label .break)
    else if !(k.pieces .continue).isEmpty then .continueOn place (k.label .continue)
    else match k.expr? .yield with
      | some e => .yield place e
      | none => .expr place (k.expr .expr)

def buildFor (place : Position) (k : Kept) : Stmt :=
  let body := k.stmt .body
  match k.pieces .forIn ++ k.pieces .forLoop with
  | .forIn varPlace kind name iterable :: _ => .forIn place varPlace kind name iterable body
  | .forLoop kind init condition updates :: _ => .forLoop place kind init condition updates body
  | _ => .empty place

def buildRelational (place : Position) (k : Kept) : Expr :=
  let left := k.expr .left
  if k.has .op then .binary place (k.text .op) left (k.expr .right)
  else if k.has .isType then .isType place left (k.text .isType)
  else if k.has .asType then .asType place left (k.text .asType)
  else left

def buildSuffix (place : Position) (k : Kept) : Suffix :=
  match k.pieces .member, k.arguments? .call with
  | .memberSuffix className name args :: _, _ =>
    if className = "" then .member place name args else .direct place className name args
  | _, some args => .call place args
  | _, none => .index place (k.expr .index)

def buildPrimary (place : Position) (k : Kept) : Except BadNumeral Primary :=
  match k with
  | (.null, _) :: _ => .ok (.null place)
  | (.true, _) :: _ => .ok (.bool place true)
  | (.false, _) :: _ => .ok (.bool place false)
  | (.this, _) :: _ => .ok (.this place)
  | (.float, .token t) :: _ =>
    match Decimal.readFraction t.text with
    | .ok f => .ok (.float place f)
    | .error e => .error ⟨t, e⟩
  | (.integer, .token t) :: _ => .ok (.integer place t.text)
  | (.symbol, .token t) :: _ => .ok (.symbol place t.text)
  | (.typeName, .token t) :: _ => .ok (.typeName place t.text)
  | (.throw, .piece (.expr e)) :: _ => .ok (.throw place e)
  | (.rethrow, _) :: _ => .ok (.rethrow place)
  | (.ident, .token t) :: _ => .ok (.ident place t.text)
  | (.paren, .piece (.expr e)) :: _ => .ok (.paren place e)
  | (_, .piece (.primary p)) :: _ => .ok p
  | _ => .ok (.null place)

def buildConst (place : Position) (k : Kept) : Primary :=
  match k.primary? .list, k.primary? .map with
  | some (.list p _ elements), _ => .list p true elements
  | _, some (.map p _ entries) => .map p true entries
  | _, _ => .constNew place (k.text .target) (k.text .name) (k.arguments .args)

def buildInitializer (place : Position) (k : Kept) : Initializer :=
  match k.pieces .super, k.pieces .redirect with
  | .delegation name args :: _, _ => .superCall place name args
  | _, .delegation name args :: _ => .redirect place name args
  | _, _ => .field place (k.text .field) (k.expr .value)

def buildBody (place : Position) (k : Kept) : Body :=
  match k.block? .block, k.expr? .arrow with
  | some b, _ => .block b
  | none, some e => .arrow place e
  | none, none => .none place

def buildGroup (k : Kept) : ParameterGroup :=
  match k.params .required, k.params .optional with
  | p :: _, _ => .required p
  | [], [] => .named (k.params .named)
  | [], ps => .optional ps

def buildProgram (place : Position) (k : Kept) : Program :=
  ⟨place, k.text .name,
    (k.pieces .declarations).filterMap fun | .declaration d => some d | _ => none⟩

def buildClass (place : Position) (k : Kept) : ClassDecl :=
  ⟨place, k.text .name, k.text .super,
    (k.pieces .members).filterMap fun | .member m => some m | _ => none⟩

def buildDeclaration (k : Kept) : Piece :=
  match k with
  | (_, .piece (.classDecl c)) :: _ => .declaration (.classDecl c)
  | (_, .piece (.member m)) :: _ => .declaration (.member m)
  | _ => .label ""

def build (r : Rule) (place : Position) (k : Kept) : Except BadNumeral Piece :=
  match r with
  | .program => .ok (.program (buildProgram place k))
  | .declaration => .ok (buildDeclaration k)
  | .classDecl => .ok (.classDecl (buildClass place k))
  | .member => .ok (buildMember place k)
  | .field => .ok (.shape (.field place k.variableKind (k.text .name) (k.expr? .value)))
  | .procedure => .ok (.shape
      (.procedure place k.procedureKind (k.text .name) (k.parameters? .params) (k.body .body)))
  | .constructor => .ok (.shape (.constructor place (k.has .isConst) (k.text .name)
      (k.parameters .params)
      ((k.pieces .initializers).filterMap fun | .initializer i => some i | _ => none)
      (k.body .body)))
  | .initializer => .ok (.initializer (buildInitializer place k))
  | .delegation => .ok (.delegation (k.text .name) (k.arguments .args))
  | .functionBody => .ok (.body (buildBody place k))
  | .parameters => .ok (.parameters (.mk place
      ((k.pieces .groups).filterMap fun | .group g => some g | _ => none)))
  | .parameterGroup => .ok (.group (buildGroup k))
  | .parameter => .ok (.parameter (.mk place (k.text .name) (k.expr? .value)))
  | .block => .ok (.block (.mk place (k.stmts .statements)))
  | .statement => .ok (.stmt (buildStatement place k))
  | .variableStmt => .ok (.stmt (.declare place k.variableKind (k.declarators .values)))
  | .declarator => .ok (.declarator (.mk place (k.text .name) (k.expr? .value)))
  | .localFunction => .ok (.stmt
      (.function place (k.text .name) (k.parameters .params) (k.body .body)))
  | .ifStmt => .ok (.stmt
      (.branch place (k.expr .condition) (k.stmt .yes) (k.stmts .no).head?))
  | .whileStmt => .ok (.stmt (.whileDo place (k.expr .condition) (k.stmt .body)))
  | .doStmt => .ok (.stmt (.doWhile place (k.stmt .body) (k.expr .condition)))
  | .forStmt => .ok (.stmt (buildFor place k))
  | .forIn => .ok (.forIn place k.variableKind (k.text .name) (k.expr .iterable))
  | .forLoop => .ok (.forLoop k.variableKind (k.declarators .init) (k.expr? .condition)
      (k.exprs .updates))
  | .switchStmt => .ok (.stmt (.switch place (k.expr .subject)
      ((k.pieces .cases).filterMap fun | .switchCase c => some c | _ => none)))
  | .switchCase => .ok (.switchCase (.mk place (k.text .label)
      ((k.pieces .tests).filterMap fun | .caseTest t => some t | _ => none) (k.stmts .body)))
  | .caseMatch => .ok (.caseTest
      (if k.has .isDefault then .default else .value (k.expr .value)))
  | .jump => .ok (.label (k.text .label))
  | .returnStmt => .ok (.stmt (.giveBack place (k.expr? .value)))
  | .tryStmt => .ok (.stmt (.attempt place (k.block .body)
      ((k.pieces .catches).filterMap fun | .catchClause c => some c | _ => none)
      (k.block? .finalizer)))
  | .catchClause => .ok (.catchClause (.mk place (k.text .guard)
      ((k.pieces .binding).findSome? fun | .binding b => some b | _ => none) (k.block .body)))
  | .catchBinding => .ok (.binding ⟨place, k.text .exception, k.text .stackTrace⟩)
  | .assertStmt => .ok (.stmt (.assert place (k.expr .condition) (k.expr? .message)))
  | .labeledStmt => .ok (.stmt (.labeled place (k.text .label) (k.stmt .body)))
  | .expr => .ok (.expr (match k.expr? .value with
      | some value => .assign place (k.expr .target) value
      | none => k.expr .target))
  | .conditional => .ok (.expr (match k.expr? .yes with
      | some yes => .conditional place (k.expr .condition) yes (k.expr .no)
      | none => k.expr .condition))
  | .ifNull => .ok (.expr (k.logical place .ifNull))
  | .or => .ok (.expr (k.logical place .or))
  | .and => .ok (.expr (k.logical place .and))
  | .equality => .ok (.expr
      (if k.has .op then .binary place (k.text .op) (k.expr .left) (k.expr .right)
       else k.expr .left))
  | .relational => .ok (.expr (buildRelational place k))
  | .bitwise | .additive | .multiplicative => .ok (.expr k.operations)
  | .bitwiseOp | .additiveOp | .multiplicativeOp =>
    .ok (.operation place (k.text .op) (k.expr .right))
  | .unary => .ok (.expr
      (if k.has .op then .unary place (k.text .op) (k.expr .operand) else k.expr .left))
  | .chain => .ok (.expr (.chain ((k.primary? .head).getD default)
      ((k.pieces .suffixes).filterMap fun | .suffix s => some s | _ => none)))
  | .suffix => .ok (.suffix (buildSuffix place k))
  | .memberSuffix => .ok (.memberSuffix (k.text .className) (k.text .name) (k.arguments? .args))
  | .primary => (buildPrimary place k).map .primary
  | .stringLit => .ok (.primary (.string place
      ((k.pieces .parts).filterMap fun | .part p => some p | _ => none)))
  | .stringPart => .ok (.part (match k.expr? .expr with
      | some e => .interpolation place e
      | none => if k.has .escaped then .escaped place (k.text .escaped)
        else .chars place (k.text .chars)))
  | .newExpr => .ok (.primary
      (.new place (k.text .className) (k.text .name) (k.arguments .args)))
  | .constExpr => .ok (.primary (buildConst place k))
  | .listLit => .ok (.primary (.list place false (k.exprs .items)))
  | .mapLit => .ok (.primary (.map place false
      ((k.pieces .entries).filterMap fun | .entry e => some e | _ => none)))
  | .mapEntry => .ok (.entry (.mk (k.expr .key) (k.expr .value)))
  | .functionExpr => .ok (.primary
      (.function place (k.parameters .params) (buildBody place k)))
  | .letExpr => .ok (.primary (.letIn place (k.text .name) (k.expr .value) (k.expr .body)))
  | .arguments => .ok (.arguments (.mk place
      ((k.pieces .items).filterMap fun | .argument a => some a | _ => none)))
  | .argument => .ok (.argument (.mk place (k.text .name) (k.expr .value)))

end Flowgraph.Surface
