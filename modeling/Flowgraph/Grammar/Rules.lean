import Flowgraph.Grammar.Pattern

/-! # The grammar

One pattern for each syntactic category.
-/

namespace Flowgraph.Grammar

open Pattern

def opt (p : Pattern) : Pattern := .group .optional p

def many (p : Pattern) : Pattern := .group .many p

def once (p : Pattern) : Pattern := .group .once p

def ident (slot : Slot) : Pattern := .keep slot (.token .ident)

def word (slot : Slot) (text : String) : Pattern := .keep slot text

def sub (slot : Slot) (r : Rule) : Pattern := .keep slot (.rule r)

def oneOf (slot : Slot) (texts : List String) : Pattern :=
  .keep slot (once (.choice (texts.map .literal)))

def commaSeparated (slot : Slot) (r : Rule) : List Pattern :=
  [sub slot r, many (.seq [",", sub slot r])]

def between (first last : String) (parts : List Pattern) : Pattern :=
  .seq (.literal first :: parts ++ [.literal last])

def Rule.pattern : Rule → Pattern
  | program => .seq ["library", ident .name, ";", many (sub .declarations .declaration)]
  | declaration => .choice [sub .classDecl .classDecl, sub .member .member]
  | classDecl => .seq ["class", ident .name, opt (.seq ["extends", ident .super]), "\x7b",
      many (sub .members .member), "\x7d"]
  | member => .seq [opt (word .isStatic "static"), opt (word .isExternal "external"),
      once (.choice [sub .constructor .constructor, sub .field .field, sub .procedure .procedure])]
  | field => .seq [oneOf .kind ["var", "final", "const"], ident .name,
      opt (.seq ["=", sub .value .expr]), ";"]
  | procedure => .seq [oneOf .kind ["fun", "get", "set", "factory"], opt (ident .name),
      opt (sub .params .parameters), sub .body .functionBody]
  | constructor => .seq [opt (word .isConst "const"), "new", opt (ident .name),
      sub .params .parameters,
      opt (.seq (":" :: commaSeparated .initializers .initializer)), sub .body .functionBody]
  | initializer => .choice [.seq ["super", sub .super .delegation],
      .seq ["this", sub .redirect .delegation], .seq [ident .field, "=", sub .value .expr]]
  | delegation => .seq [opt (.seq [".", ident .name]), sub .args .arguments]
  | functionBody => .choice [sub .block .block, .seq ["=>", sub .arrow .expr, ";"],
      word .empty ";"]
  | parameters => .seq ["(", opt (.seq (commaSeparated .groups .parameterGroup)), ")"]
  | parameterGroup => .choice [between "[" "]" (commaSeparated .optional .parameter),
      between "\x7b" "\x7d" (commaSeparated .named .parameter), sub .required .parameter]
  | parameter => .seq [ident .name, opt (.seq ["=", sub .value .expr])]
  | block => .seq ["\x7b", many (sub .statements .statement), "\x7d"]
  | statement => .choice [sub .block .block, word .empty ";", sub .variable .variableStmt,
      sub .function .localFunction, sub .branch .ifStmt, sub .while .whileStmt,
      sub .doWhile .doStmt, sub .for .forStmt, sub .switch .switchStmt,
      .seq ["break", sub .break .jump], .seq ["continue", sub .continue .jump],
      sub .return .returnStmt, sub .try .tryStmt, sub .assert .assertStmt,
      .seq ["yield", sub .yield .expr, ";"], sub .labeled .labeledStmt,
      .seq [sub .expr .expr, ";"]]
  | variableStmt => .seq (oneOf .kind ["var", "final", "const"] ::
      commaSeparated .values .declarator ++ [.literal ";"])
  | declarator => .seq [ident .name, opt (.seq ["=", sub .value .expr])]
  | localFunction => .seq ["fun", ident .name, sub .params .parameters, sub .body .functionBody]
  | ifStmt => .seq ["if", "(", sub .condition .expr, ")", sub .yes .statement,
      opt (.seq ["else", sub .no .statement])]
  | whileStmt => .seq ["while", "(", sub .condition .expr, ")", sub .body .statement]
  | doStmt => .seq ["do", sub .body .statement, "while", "(", sub .condition .expr, ")", ";"]
  | forStmt => .seq ["for", "(", once (.choice [sub .forIn .forIn, sub .forLoop .forLoop]), ")",
      sub .body .statement]
  | forIn => .seq [oneOf .kind ["var", "final"], ident .name, "in", sub .iterable .expr]
  | forLoop => .seq [opt (.seq (oneOf .kind ["var", "final"] :: commaSeparated .init .declarator)),
      ";", opt (sub .condition .expr), ";", opt (.seq (commaSeparated .updates .expr))]
  | switchStmt => .seq ["switch", "(", sub .subject .expr, ")", "\x7b",
      many (sub .cases .switchCase), "\x7d"]
  | switchCase => .seq [opt (.seq [ident .label, ":"]), .group .some (sub .tests .caseMatch),
      many (sub .body .statement)]
  | caseMatch => .choice [.seq [word .isDefault "default", ":"],
      .seq ["case", sub .value .expr, ":"]]
  | jump => .seq [opt (ident .label), ";"]
  | returnStmt => .seq ["return", opt (sub .value .expr), ";"]
  | tryStmt => .seq ["try", sub .body .block, many (sub .catches .catchClause),
      opt (.seq ["finally", sub .finalizer .block])]
  | catchClause => .seq [once (.choice [
        .seq ["on", ident .guard, opt (sub .binding .catchBinding)],
        sub .binding .catchBinding]), sub .body .block]
  | catchBinding => .seq ["catch", "(", ident .exception, opt (.seq [",", ident .stackTrace]), ")"]
  | assertStmt => .seq ["assert", "(", sub .condition .expr,
      opt (.seq [",", sub .message .expr]), ")", ";"]
  | labeledStmt => .seq [ident .label, ":", sub .body .statement]
  | expr => .seq [sub .target .conditional, opt (.seq ["=", sub .value .expr])]
  | conditional => .seq [sub .condition .ifNull,
      opt (.seq ["?", sub .yes .expr, ":", sub .no .expr])]
  | ifNull => .seq [sub .left .or, many (.seq ["??", sub .rest .or])]
  | or => .seq [sub .left .and, many (.seq ["||", sub .rest .and])]
  | and => .seq [sub .left .equality, many (.seq ["&&", sub .rest .equality])]
  | equality => .seq [sub .left .relational,
      opt (.seq [oneOf .op ["===", "!==", "==", "!="], sub .right .relational])]
  | relational => .seq [sub .left .bitwise, opt (.choice [
      .seq [oneOf .op ["<=", ">=", "<", ">"], sub .right .bitwise],
      .seq ["is", ident .isType], .seq ["as", ident .asType]])]
  | bitwise => .seq [sub .left .additive, many (sub .rest .bitwiseOp)]
  | bitwiseOp => .seq [oneOf .op ["&", "|", "^"], sub .right .additive]
  | additive => .seq [sub .left .multiplicative, many (sub .rest .additiveOp)]
  | additiveOp => .seq [oneOf .op ["+", "-"], sub .right .multiplicative]
  | multiplicative => .seq [sub .left .unary, many (sub .rest .multiplicativeOp)]
  | multiplicativeOp => .seq [oneOf .op ["*", "/", "%", "~/"], sub .right .unary]
  | unary => .choice [once (.seq [oneOf .op ["!", "-", "~"], sub .operand .unary]),
      sub .left .chain]
  | chain => .seq [sub .head .primary, many (sub .suffixes .suffix)]
  | suffix => .choice [.seq [".", sub .member .memberSuffix], sub .call .arguments,
      .seq ["[", sub .index .expr, "]"]]
  | memberSuffix => .seq [opt (.seq [ident .className, "::"]), ident .name,
      opt (sub .args .arguments)]
  | primary => .choice [word .null "null", word .true "true", word .false "false",
      word .this "this", .keep .float (.token .float), .keep .integer (.token .integer),
      sub .string .stringLit, .seq ["#", ident .symbol], .seq ["type", ident .typeName],
      sub .new .newExpr, sub .const .constExpr, sub .list .listLit, sub .map .mapLit,
      sub .function .functionExpr, sub .letIn .letExpr, .seq ["throw", sub .throw .expr],
      word .rethrow "rethrow", ident .ident, .seq ["(", sub .paren .expr, ")"]]
  | stringLit => .seq [.token .stringStart, many (sub .parts .stringPart), .token .stringEnd]
  | stringPart => .choice [.keep .chars (.token .chars), .keep .escaped (.token .escaped),
      .seq [.token .interpolationStart, sub .expr .expr, .token .interpolationEnd]]
  | newExpr => .seq ["new", ident .className, opt (.seq [".", ident .name]), sub .args .arguments]
  | constExpr => .seq ["const", once (.choice [sub .list .listLit, sub .map .mapLit,
      .seq [ident .target, opt (.seq [".", ident .name]), sub .args .arguments]])]
  | listLit => .seq ["[", opt (.seq (commaSeparated .items .expr ++ [opt ","])), "]"]
  | mapLit => .seq ["\x7b", opt (.seq (commaSeparated .entries .mapEntry ++ [opt ","])), "\x7d"]
  | mapEntry => .seq [sub .key .expr, ":", sub .value .expr]
  | functionExpr => .seq ["fun", sub .params .parameters,
      once (.choice [sub .block .block, .seq ["=>", sub .arrow .expr]])]
  | letExpr => .seq ["let", ident .name, "=", sub .value .expr, "in", sub .body .expr]
  | arguments => .seq ["(", opt (.seq (commaSeparated .items .argument)), ")"]
  | argument => .seq [opt (.seq [ident .name, ":"]), sub .value .expr]

end Flowgraph.Grammar
