import Flowgraph.Token.Basic
import Flowgraph.Text.Quoted

/-! # Grammar patterns

A grammar is a value: one pattern per rule, made of literals, token kinds and
references to rules, with slots that name the parts to keep. The same value is
matched against tokens and printed in messages about what was expected.
-/

namespace Flowgraph.Grammar

inductive Rule
  | program | declaration | classDecl | member | field | procedure | constructor | initializer
  | delegation | functionBody | parameters | parameterGroup | parameter | block | statement
  | variableStmt | declarator | localFunction | ifStmt | whileStmt | doStmt | forStmt | forIn
  | forLoop | switchStmt | switchCase | caseMatch | jump | returnStmt | tryStmt | catchClause
  | catchBinding | assertStmt | labeledStmt | expr | conditional | ifNull | or | and | equality
  | relational | bitwise | bitwiseOp | additive | additiveOp | multiplicative | multiplicativeOp
  | unary | chain | suffix | memberSuffix | primary | stringLit | stringPart | newExpr | constExpr
  | listLit | mapLit | mapEntry | functionExpr | letExpr | arguments | argument
  deriving DecidableEq, Repr

def Rule.name : Rule → String
  | program => "Program" | declaration => "Declaration" | classDecl => "Class"
  | member => "Member" | field => "Field" | procedure => "Procedure"
  | constructor => "Constructor" | initializer => "Initializer" | delegation => "Delegation"
  | functionBody => "FunctionBody" | parameters => "Parameters"
  | parameterGroup => "ParameterGroup" | parameter => "Parameter" | block => "Block"
  | statement => "Statement" | variableStmt => "VariableStmt" | declarator => "Declarator"
  | localFunction => "LocalFunction" | ifStmt => "IfStmt" | whileStmt => "WhileStmt"
  | doStmt => "DoStmt" | forStmt => "ForStmt" | forIn => "ForIn" | forLoop => "ForLoop"
  | switchStmt => "SwitchStmt" | switchCase => "SwitchCase" | caseMatch => "CaseMatch"
  | jump => "Jump" | returnStmt => "ReturnStmt" | tryStmt => "TryStmt"
  | catchClause => "CatchClause" | catchBinding => "CatchBinding" | assertStmt => "AssertStmt"
  | labeledStmt => "LabeledStmt" | expr => "Expr" | conditional => "Conditional"
  | ifNull => "IfNull" | or => "Or" | and => "And" | equality => "Equality"
  | relational => "Relational" | bitwise => "Bitwise" | bitwiseOp => "BitwiseOp"
  | additive => "Additive" | additiveOp => "AdditiveOp" | multiplicative => "Multiplicative"
  | multiplicativeOp => "MultiplicativeOp" | unary => "Unary" | chain => "Postfix"
  | suffix => "Suffix" | memberSuffix => "MemberSuffix" | primary => "Primary"
  | stringLit => "StringLit" | stringPart => "StringPart" | newExpr => "NewExpr"
  | constExpr => "ConstExpr" | listLit => "ListLit" | mapLit => "MapLit"
  | mapEntry => "MapEntry" | functionExpr => "FunctionExpr" | letExpr => "LetExpr"
  | arguments => "Arguments" | argument => "Argument"

inductive Slot
  | name | super | kind | op | label | guard | target | className
  | isStatic | isExternal | isConst | isDefault
  | null | true | false | this | float | integer | symbol | typeName | rethrow | ident
  | chars | escaped | empty
  | classDecl | member | members | constructor | field | procedure | declarations
  | params | body | initializers | redirect | args | arrow | groups | optional | named | required
  | value | values | statements | condition | yes | no | left | right | rest
  | variable | function | branch | while | doWhile | for | switch | break | continue | return | try
  | assert | yield | labeled | expr | block
  | forIn | forLoop | init | updates | iterable | subject | cases | tests
  | catches | finalizer | binding | exception | stackTrace | message
  | string | parts | new | const | list | map | entries | key | letIn | throw | paren
  | head | suffixes | call | index | items | operand | isType | asType
  deriving DecidableEq, Repr

inductive Repeat
  | once
  | optional
  | many
  | some
  deriving DecidableEq, Repr

inductive Pattern
  | literal (text : String)
  | token (kind : TokenKind)
  | rule (rule : Rule)
  | keep (slot : Slot) (body : Pattern)
  | seq (parts : List Pattern)
  | choice (alternatives : List Pattern)
  | group (mode : Repeat) (body : Pattern)
  deriving Inhabited

namespace Pattern

instance : Coe String Pattern := ⟨.literal⟩

def Repeat.mark : Repeat → String
  | .once => ""
  | .optional => "?"
  | .many => "*"
  | .some => "+"

mutual

/-- A pattern as messages show it. A plain group directly inside a group, or
kept there, adds no parentheses of its own. -/
def render : Pattern → String
  | literal text => Text.quote text
  | token kind => "<" ++ kind.name.toLower ++ ">"
  | rule r => r.name
  | keep _ body => render body
  | seq parts => "(" ++ renderJoined " " parts ++ ")"
  | choice alternatives => "(" ++ renderJoined " | " alternatives ++ ")"
  | group mode body => render body ++ Repeat.mark mode

def renderJoined (sep : String) : List Pattern → String
  | [] => ""
  | [p] => render p
  | p :: ps => render p ++ sep ++ renderJoined sep ps

end

end Pattern

end Flowgraph.Grammar
