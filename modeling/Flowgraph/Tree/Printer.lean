import Flowgraph.Tree.Basic
import Flowgraph.Text.Quoted
import Flowgraph.Decimal.Shortest

/-! # Printed trees

The text of a tree. Binary operations, tests and conditionals stand in
parentheses; a receiver gets its own only where it would read differently.
-/

namespace Flowgraph.Tree

def indent (s : String) : String :=
  String.ofList (' ' :: ' ' :: s.toList.flatMap fun c => if c = '\n' then ['\n', ' ', ' '] else [c])

def commas (parts : List String) : String := String.intercalate ", " parts

def parens (s : String) : String := "(" ++ s ++ ")"

def braces (s : String) : String := "\x7b" ++ s ++ "\x7d"

def bracedLines (lines : List String) : String :=
  "\x7b\n" ++ String.join (lines.map fun l => indent l ++ "\n") ++ "\x7d"

/-- A double is told from an integer by a point or an exponent. -/
def doubleText (f : Float) : String :=
  let s := Decimal.write f
  if s.toList.any (· ∈ ['.', 'e', 'E', 'n']) then s else s ++ ".0"

def binaryOperators : List String :=
  ["+", "-", "*", "/", "~/", "%", "==", "<", ">", "<=", ">=", "&", "|", "^", "<<", ">>"]

def Expr.isLoose : Expr → Bool
  | set .. | staticSet .. | propertySet .. | directSet .. | throw .. | function .. => true
  | _ => false

def loosely (e : Expr) (text : String) : String := if e.isLoose then parens text else text

def constWord (isConst : Bool) : String := if isConst then "const " else ""

mutual

def Expr.render : Expr → String
  | .absent => ""
  | .invalid _ message => "invalid(" ++ Text.quote message ++ ")"
  | .null _ => "null"
  | .bool _ value => if value then "true" else "false"
  | .int _ value => toString value.toInt
  | .double _ value => doubleText value
  | .string _ value => Text.quote value
  | .symbol _ name => "#" ++ name
  | .typeLit _ name => "type " ++ name
  | .this _ => "this"
  | .get _ v => v.name
  | .set _ v value => v.name ++ " = " ++ value.render
  | .staticGet _ target => target.render
  | .staticSet _ target value => target.render ++ " = " ++ value.render
  | .propertyGet _ receiver name => loosely receiver receiver.render ++ "." ++ name
  | .propertySet _ receiver name value =>
    loosely receiver receiver.render ++ "." ++ name ++ " = " ++ value.render
  | .directGet _ receiver target => loosely receiver receiver.render ++ "." ++ target.render
  | .directSet _ receiver target value =>
    loosely receiver receiver.render ++ "." ++ target.render ++ " = " ++ value.render
  | .staticCall _ target args isConst => constWord isConst ++ target.render ++ args.render
  | .methodCall _ receiver name ⟨positional, named⟩ =>
    let texts := renderAll positional
    let all := parens (commas (texts ++ renderNamed named))
    if name = "unary-" ∧ positional.isEmpty ∧ named.isEmpty then
      "-" ++ loosely receiver receiver.render
    else match texts, named with
      | [text], [] =>
        if name ∈ binaryOperators then
          parens (receiver.render ++ " " ++ name ++ " " ++ text)
        else loosely receiver receiver.render ++ "." ++ name ++ all
      | _, _ => loosely receiver receiver.render ++ "." ++ name ++ all
  | .construct _ target args isConst =>
    let name := if target.name = "" then target.className else target.render
    (if isConst then "const " else "new ") ++ name ++ args.render
  | .isType _ operand name => parens (operand.render ++ " is " ++ name)
  | .asType _ operand name => parens (operand.render ++ " as " ++ name)
  | .conditional _ condition yes no =>
    parens (condition.render ++ " ? " ++ yes.render ++ " : " ++ no.render)
  | .logical _ op left right => parens (left.render ++ " " ++ op.text ++ " " ++ right.render)
  | .not _ operand => "!" ++ loosely operand operand.render
  | .concat _ parts => "concat" ++ parens (commas (renderAll parts))
  | .list _ elements isConst => constWord isConst ++ "[" ++ commas (renderAll elements) ++ "]"
  | .map _ entries isConst => constWord isConst ++ braces (commas (renderEntries entries))
  | .function _ body => "fn " ++ body.renderParameters ++ body.renderBody
  | .letIn _ ⟨_, _, name, initializer, _, _⟩ body =>
    parens ("let " ++ name ++ " = " ++ renderOption initializer ++ " in " ++ body.render)
  | .throw _ value => "throw " ++ value.render
  | .rethrow _ => "rethrow"

def renderAll : List Expr → List String
  | [] => []
  | e :: es => e.render :: renderAll es

def renderOption : Option Expr → String
  | none => ""
  | some e => e.render

def renderNamed : List NamedArgument → List String
  | [] => []
  | ⟨name, value⟩ :: rest => (name ++ ": " ++ value.render) :: renderNamed rest

def renderEntries : List MapEntry → List String
  | [] => []
  | ⟨key, value⟩ :: rest => (key.render ++ ": " ++ value.render) :: renderEntries rest

def Arguments.render : Arguments → String
  | ⟨positional, named⟩ => parens (commas (renderAll positional ++ renderNamed named))

def Declaration.renderParameter : Declaration → String
  | ⟨_, _, name, none, _, _⟩ => name
  | ⟨_, _, name, some value, _, _⟩ => name ++ " = " ++ value.render

def renderParameterList : List Declaration → List String
  | [] => []
  | d :: ds => d.renderParameter :: renderParameterList ds

def Function.renderParameters : Function → String
  | ⟨_, _, positional, required, named, _⟩ =>
    let names := (positional.take required).map Declaration.name
    let optional := (renderParameterList positional).drop required
    let brackets := if optional.isEmpty then [] else ["[" ++ commas optional ++ "]"]
    let inBraces := if named.isEmpty then [] else [braces (commas (renderParameterList named))]
    parens (commas (names ++ brackets ++ inBraces))

def Function.renderBody : Function → String
  | ⟨_, _, _, _, _, none⟩ => ";"
  | ⟨_, _, _, _, _, some body⟩ => " " ++ body.render

def Declaration.render : Declaration → String
  | ⟨_, _, name, initializer, isConst, isFinal⟩ =>
    let keyword := if isConst then "const" else if isFinal then "final" else "var"
    match initializer with
    | none => keyword ++ " " ++ name ++ ";"
    | some value => keyword ++ " " ++ name ++ " = " ++ value.render ++ ";"

def renderLoopVariables : List Declaration → List String
  | [] => []
  | d :: ds => String.ofList (d.render.toList.dropLast) :: renderLoopVariables ds

def Stmt.render : Stmt → String
  | .absent => ""
  | .invalid _ message => "invalid(" ++ Text.quote message ++ ");"
  | .empty _ => ";"
  | .block _ _ statements =>
    if statements.isEmpty then "\x7b\x7d" else bracedLines (renderStmts statements)
  | .expr _ value => value.render ++ ";"
  | .declare decl => decl.render
  | .function _ ⟨_, _, name, _, _, _⟩ body =>
    "function " ++ name ++ body.renderParameters ++ body.renderBody
  | .branch _ condition yes no =>
    "if " ++ parens condition.render ++ " " ++ yes.render ++ renderElse no
  | .whileDo _ condition body => "while " ++ parens condition.render ++ " " ++ body.render
  | .doWhile _ body condition =>
    "do " ++ body.render ++ " while " ++ parens condition.render ++ ";"
  | .forLoop _ _ vars condition updates body =>
    let test := match condition with
      | none => ""
      | some c => " " ++ c.render
    let steps := if updates.isEmpty then "" else " " ++ commas (renderAll updates)
    "for " ++ parens (commas (renderLoopVariables vars) ++ ";" ++ test ++ ";" ++ steps) ++
      " " ++ body.render
  | .forIn _ _ ⟨_, _, name, _, _, _⟩ iterable body =>
    "for " ++ parens ("var " ++ name ++ " in " ++ iterable.render) ++ " " ++ body.render
  | .labeled _ _ label body => label ++ ": " ++ body.render
  | .breakOut _ target => "break " ++ target.name ++ ";"
  | .switch _ subject cases =>
    "switch " ++ parens subject.render ++ " " ++ bracedLines (renderCases cases)
  | .continueCase _ target => "continue " ++ target.name ++ ";"
  | .giveBack _ value =>
    match value with
    | none => "return;"
    | some e => "return " ++ e.render ++ ";"
  | .tryCatch _ body catches => "try " ++ body.render ++ String.join (renderCatches catches)
  | .tryFinally _ body finalizer => "try " ++ body.render ++ " finally " ++ finalizer.render
  | .assert _ condition message =>
    match message with
    | none => "assert" ++ parens condition.render ++ ";"
    | some m => "assert" ++ parens (condition.render ++ ", " ++ m.render) ++ ";"
  | .yield _ value => "yield " ++ value.render ++ ";"

def renderElse : Option Stmt → String
  | none => ""
  | some s => " else " ++ s.render

def renderStmts : List Stmt → List String
  | [] => []
  | s :: rest => s.render :: renderStmts rest

def renderTests : List Expr → List String
  | [] => []
  | e :: es => ("case " ++ e.render ++ ": ") :: renderTests es

def renderCases : List SwitchCase → List String
  | [] => []
  | ⟨_, _, label, tests, isDefault, body⟩ :: rest =>
    ((if label = "" then "" else "@" ++ label ++ " ") ++ String.join (renderTests tests) ++
      (if isDefault then "default: " else "") ++ body.render) :: renderCases rest

def renderCatches : List CatchClause → List String
  | [] => []
  | ⟨_, _, guard, exception, stackTrace, body⟩ :: rest =>
    let on := if guard = "" then "" else "on " ++ guard ++ " "
    let name := (exception.map Declaration.name).getD ""
    let trace := match stackTrace with
      | none => ""
      | some d => ", " ++ d.name
    (" " ++ on ++ "catch " ++ parens (name ++ trace) ++ " " ++ body.render) :: renderCatches rest

end

/-! ## Members -/

def Initializer.render : Initializer → String
  | field _ name value => name ++ " = " ++ value.render
  | superCall _ target args =>
    "super" ++ (if target.name = "" then "" else "." ++ target.name) ++ args.render
  | redirect _ target args =>
    "this" ++ (if target.name = "" then "" else "." ++ target.name) ++ args.render

def Field.render (f : Field) (inClass : Bool) : String :=
  (if f.isStatic && inClass then "static " else "") ++
  (if f.isConst then "const " else if f.isFinal then "final " else "") ++
  "field " ++ f.name ++ (match f.initializer with | none => "" | some e => " = " ++ e.render) ++ ";"

def Procedure.render (p : Procedure) (inClass : Bool) : String :=
  let f := p.function.getD default
  (if p.isStatic && inClass && p.kind ≠ .factory then "static " else "") ++
  (if p.isExternal then "external " else "") ++
  (match p.kind with
    | .get => "get " ++ p.name
    | .set => "set " ++ p.name ++ f.renderParameters
    | .factory => "factory " ++ p.name ++ f.renderParameters
    | .method => (if inClass then "method " else "procedure ") ++ p.name ++ f.renderParameters) ++
  f.renderBody

def Constructor.render (c : Constructor) : String :=
  constWord c.isConst ++ "constructor" ++ (if c.name = "" then "" else " " ++ c.name) ++
  c.function.renderParameters ++
  (if c.initializers.isEmpty then ""
   else " : " ++ commas (c.initializers.map Initializer.render)) ++
  c.function.renderBody

def ClassDecl.render (c : ClassDecl) : String :=
  "class " ++ c.name ++ (if c.super = "" then "" else " extends " ++ c.super) ++ " " ++
  bracedLines (c.fields.map (·.render true) ++ c.constructors.map Constructor.render ++
    c.procedures.map (·.render true))

def Library.render (l : Library) : String :=
  let parts := l.fields.map (·.render false) ++ l.procedures.map (·.render false) ++
    l.classes.map ClassDecl.render
  if l.name = "" then String.intercalate "\n" parts
  else "library " ++ l.name ++ ";\n" ++ String.join (parts.map ("\n" ++ ·))

end Flowgraph.Tree
