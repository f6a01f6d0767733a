import Flowgraph.Resolve.State
import Flowgraph.Surface.Basic

/-! # Lexical scoping

When the names and jumps of a tree are bound as they are written. Variables in sight are kept with
the latest first, so that a declaration hides those of its name in the scopes around it. A variable
is in sight after its own initializer, a function in its own body too. Jumps are bound to the
statements around them within one function.
-/

namespace Flowgraph.Resolve

open Flowgraph.Tree (Ref)

/-! ## What is written -/

/-- A jump as it is written. An empty label stands for none. -/
inductive Jump
  | breakOut (label : String)
  | continueOn (label : String)

/-- A name, an assignment to a name, a jump or a label in a source text. -/
inductive Mark
  | name (place : Position) (name : String)
  | assigned (place : Position) (name : String)
  | jump (place : Position) (jump : Jump)
  | label (place : Position) (label : String)

section Marks

open Surface

/-- The mark of an assignment at `place` to this target. -/
def assignedMarks (place : Position) : Expr → List Mark
  | .chain (.ident _ name) [] => [.assigned place name]
  | _ => []

mutual

def exprMarks : Expr → List Mark
  | .assign place target value => assignedMarks place target ++ exprMarks target ++ exprMarks value
  | .conditional _ condition yes no => exprMarks condition ++ exprMarks yes ++ exprMarks no
  | .logical _ _ left right | .binary _ _ left right => exprMarks left ++ exprMarks right
  | .isType _ operand _ | .asType _ operand _ | .unary _ _ operand => exprMarks operand
  | .chain head suffixes => primaryMarks head ++ suffixesMarks suffixes

def exprsMarks : List Expr → List Mark
  | [] => []
  | e :: rest => exprMarks e ++ exprsMarks rest

def optionMarks : Option Expr → List Mark
  | none => []
  | some e => exprMarks e

def primaryMarks : Primary → List Mark
  | .ident place name => [.name place name]
  | .string _ parts => partsMarks parts
  | .new _ _ _ args | .constNew _ _ _ args => argumentsMarks args
  | .list _ _ elements => exprsMarks elements
  | .map _ _ entries => entriesMarks entries
  | .function _ params body => parametersMarks params ++ bodyMarks body
  | .letIn _ _ value body => exprMarks value ++ exprMarks body
  | .throw _ value => exprMarks value
  | .paren _ inner => exprMarks inner
  | _ => []

def suffixesMarks : List Suffix → List Mark
  | [] => []
  | s :: rest => suffixMarks s ++ suffixesMarks rest

def suffixMarks : Suffix → List Mark
  | .member _ _ (some args) | .call _ args => argumentsMarks args
  | .index _ index => exprMarks index
  | _ => []

def partsMarks : List StringPart → List Mark
  | [] => []
  | .interpolation _ value :: rest => exprMarks value ++ partsMarks rest
  | _ :: rest => partsMarks rest

def entriesMarks : List MapEntry → List Mark
  | [] => []
  | .mk key value :: rest => exprMarks key ++ exprMarks value ++ entriesMarks rest

def argumentsMarks : Arguments → List Mark
  | .mk _ items => itemsMarks items

def itemsMarks : List Argument → List Mark
  | [] => []
  | .mk _ _ value :: rest => exprMarks value ++ itemsMarks rest

def parametersMarks : Parameters → List Mark
  | .mk _ groups => groupsMarks groups

def groupsMarks : List ParameterGroup → List Mark
  | [] => []
  | .required (.mk _ _ default) :: rest => optionMarks default ++ groupsMarks rest
  | .optional params :: rest | .named params :: rest => parameterMarks params ++ groupsMarks rest

def parameterMarks : List Parameter → List Mark
  | [] => []
  | .mk _ _ default :: rest => optionMarks default ++ parameterMarks rest

def bodyMarks : Body → List Mark
  | .block body => blockMarks body
  | .arrow _ value => exprMarks value
  | .none _ => []

def blockMarks : Block → List Mark
  | .mk _ statements => stmtsMarks statements

def stmtsMarks : List Stmt → List Mark
  | [] => []
  | s :: rest => stmtMarks s ++ stmtsMarks rest

def elseMarks : Option Stmt → List Mark
  | none => []
  | some s => stmtMarks s

def stmtMarks : Stmt → List Mark
  | .block body => blockMarks body
  | .empty _ => []
  | .declare _ _ declarators => declaratorsMarks declarators
  | .function _ _ params body => parametersMarks params ++ bodyMarks body
  | .branch _ condition yes no => exprMarks condition ++ stmtMarks yes ++ elseMarks no
  | .whileDo _ condition body | .doWhile _ body condition => exprMarks condition ++ stmtMarks body
  | .forIn _ _ _ _ iterable body => exprMarks iterable ++ stmtMarks body
  | .forLoop _ _ init condition updates body =>
    declaratorsMarks init ++ optionMarks condition ++ exprsMarks updates ++ stmtMarks body
  | .switch _ subject cases => exprMarks subject ++ casesMarks cases
  | .breakOut place label => [.jump place (.breakOut label)]
  | .continueOn place label => [.jump place (.continueOn label)]
  | .giveBack _ value => optionMarks value
  | .attempt _ body catches finalizer => blockMarks body ++ catchesMarks catches ++ finalMarks finalizer
  | .assert _ condition message => exprMarks condition ++ optionMarks message
  | .yield _ value | .expr _ value => exprMarks value
  | .labeled place label body => .label place label :: stmtMarks body

def finalMarks : Option Block → List Mark
  | none => []
  | some b => blockMarks b

def declaratorsMarks : List Declarator → List Mark
  | [] => []
  | .mk _ _ value :: rest => optionMarks value ++ declaratorsMarks rest

def testsMarks : List CaseTest → List Mark
  | [] => []
  | .default :: rest => testsMarks rest
  | .value test :: rest => exprMarks test ++ testsMarks rest

def casesMarks : List SwitchCase → List Mark
  | [] => []
  | .mk _ _ tests body :: rest => testsMarks tests ++ stmtsMarks body ++ casesMarks rest

def catchesMarks : List CatchClause → List Mark
  | [] => []
  | .mk _ _ _ body :: rest => blockMarks body ++ catchesMarks rest

end

end Marks

/-! ## Statements around a jump -/

/-- The labels directly in front of a loop or switch: the written one and the one that was made. -/
structure Front where
  written : Option Ref := none
  made : Option Ref := none

/-- The innermost of the labels. -/
def Front.around (f : Front) : Option Ref := f.made.or f.written

def Front.isNamed (f : Front) (label : String) : Prop := ∃ r, f.written = some r ∧ r.name = label

/-- A statement around a jump: a written label, a loop with the label around its body, or a switch
with its labelled cases. -/
inductive Frame
  | label (ref : Ref)
  | loop (front : Front) (body : Option Ref)
  | switch (front : Front) (cases : List Ref)

namespace Frame

/-- The labels of a frame. The written one of a loop has a frame of its own. -/
def labels : Frame → List Nat
  | label ref => [ref.id]
  | loop front body => (front.made.toList ++ body.toList).map (·.id)
  | switch front _ => front.made.toList.map (·.id)

def isBreakable : Frame → Prop
  | label _ => False
  | loop .. | switch .. => True

def isLoop : Frame → Prop
  | loop .. => True
  | _ => False

/-- Is this a loop or switch to which a continue with the label can go? -/
def takes (name : String) : Frame → Prop
  | label _ => False
  | loop front _ => front.isNamed name
  | switch _ cases => ∃ r ∈ cases, r.name = name

end Frame

/-- Where a jump goes: out of a labeled statement or to a case. -/
inductive Goal
  | out (label : Ref)
  | case (label : Ref)

/-- The frame is the innermost one with the property. -/
def Innermost (P : Frame → Prop) (frames : List Frame) (f : Frame) : Prop :=
  P f ∧ ∃ inner outer, frames = inner ++ f :: outer ∧ ∀ g ∈ inner, ¬P g

/-- Where a written jump goes. A plain break leaves the innermost loop or switch, and one with a label
the statement that has it. A continue leaves the body of a loop or goes to a labelled case. -/
inductive Goes (frames : List Frame) : Jump → Goal → Prop
  | break_loop {front body r} : Innermost Frame.isBreakable frames (.loop front body) →
      front.around = some r → Goes frames (.breakOut "") (.out r)
  | break_switch {front cases r} : Innermost Frame.isBreakable frames (.switch front cases) →
      front.around = some r → Goes frames (.breakOut "") (.out r)
  | break_label {label r} : label ≠ "" → r.name = label →
      Innermost (fun f => ∃ r, f = .label r ∧ r.name = label) frames (.label r) →
      Goes frames (.breakOut label) (.out r)
  | continue_loop {front r} : Innermost Frame.isLoop frames (.loop front (some r)) →
      Goes frames (.continueOn "") (.out r)
  | continue_label {label front r} : label ≠ "" →
      Innermost (Frame.takes label) frames (.loop front (some r)) →
      Goes frames (.continueOn label) (.out r)
  | continue_case {label front cases r} : label ≠ "" → r ∈ cases → r.name = label →
      Innermost (Frame.takes label) frames (.switch front cases) →
      Goes frames (.continueOn label) (.case r)

/-! ## Scoping -/

/-- The variable that a declaration makes. -/
def binding (d : Tree.Declaration) : Binding := ⟨d.ref, d.isFinal || d.isConst⟩

/-- The variable in sight that a name stands for. -/
def sight (vars : List Binding) (name : String) : Option Binding := vars.find? (·.ref.name = name)

/-- The number of a declaration is not that of a variable in sight. -/
def IsNew (vars : List Binding) (d : Tree.Declaration) : Prop := ∀ b ∈ vars, b.ref.id ≠ d.id

/-- The parts of an expression that neither is a variable nor makes any. -/
def children : Tree.Expr → Option (List Tree.Expr)
  | .get .. | .set .. | .function .. | .letIn .. => none
  | .staticSet _ _ value | .throw _ value => some [value]
  | .propertyGet _ receiver _ | .directGet _ receiver _ => some [receiver]
  | .propertySet _ receiver _ value | .directSet _ receiver _ value => some [receiver, value]
  | .staticCall _ _ args _ | .construct _ _ args _ => some (args.positional ++ args.named.map (·.value))
  | .methodCall _ receiver _ args => some (receiver :: args.positional ++ args.named.map (·.value))
  | .isType _ operand _ | .asType _ operand _ | .not _ operand => some [operand]
  | .conditional _ condition yes no => some [condition, yes, no]
  | .logical _ _ left right => some [left, right]
  | .concat _ parts => some parts
  | .list _ elements _ => some elements
  | .map _ entries _ => some (entries.flatMap fun e => [e.key, e.value])
  | _ => some []

/-- The expressions of a statement that is neither jumped to nor contains statements. -/
def operands : Tree.Stmt → Option (List Tree.Expr)
  | .absent | .invalid .. | .empty _ => some []
  | .expr _ value | .yield _ value => some [value]
  | .giveBack _ value => some value.toList
  | .assert _ condition message => some (condition :: message.toList)
  | _ => none

/-- The variables that a statement leaves in sight. -/
def declared : Tree.Stmt → List Binding
  | .declare d | .function _ d _ => [binding d]
  | _ => []

def caughtVars (c : Tree.CatchClause) : List Tree.Declaration := c.exception.toList ++ c.stackTrace.toList

def caseRef (c : Tree.SwitchCase) : Ref := ⟨c.id, c.label⟩

/-- Can a label be made for this statement? -/
def isJumpedOutOf : Tree.Stmt → Bool
  | .whileDo .. | .doWhile .. | .forLoop .. | .forIn .. | .switch .. => true
  | _ => false

mutual

/-- The names in an expression are bound to the variables in sight. -/
inductive ExprLexical (W : Mark → Prop) : List Binding → Tree.Expr → Prop
  | get {vars place var b} : W (.name place var.name) → sight vars var.name = some b → b.ref = var →
      ExprLexical W vars (.get place var)
  | set {vars place var value} : W (.assigned place var.name) →
      sight vars var.name = some ⟨var, false⟩ → ExprLexical W vars value →
      ExprLexical W vars (.set place var value)
  | function {vars place f} : FunctionLexical W vars f → ExprLexical W vars (.function place f)
  | letIn {vars place d body} : IsNew vars d → (∀ e ∈ d.initializer, ExprLexical W vars e) →
      ExprLexical W (binding d :: vars) body → ExprLexical W vars (.letIn place d body)
  | other {vars e parts} : children e = some parts → (∀ p ∈ parts, ExprLexical W vars p) →
      ExprLexical W vars e

/-- Declarations of one scope, each with those before it in sight. -/
inductive DeclarationsLexical (W : Mark → Prop) :
    List Binding → List Tree.Declaration → List Binding → Prop
  | nil {vars} : DeclarationsLexical W vars [] vars
  | cons {vars d rest vars'} : IsNew vars d → (∀ e ∈ d.initializer, ExprLexical W vars e) →
      DeclarationsLexical W (binding d :: vars) rest vars' → DeclarationsLexical W vars (d :: rest) vars'

/-- A function with its parameters in sight. No jump crosses its boundary. -/
inductive FunctionLexical (W : Mark → Prop) : List Binding → Tree.Function → Prop
  | mk {vars f vars'} : DeclarationsLexical W vars f.parameters vars' →
      (∀ s ∈ f.body, StmtLexical W vars' [] {} s) → FunctionLexical W vars f

/-- The names and jumps in a statement, under the frames around it and with the labels directly in
front of it. -/
inductive StmtLexical (W : Mark → Prop) : List Binding → List Frame → Front → Tree.Stmt → Prop
  | plain {vars frames front s es} : operands s = some es → (∀ e ∈ es, ExprLexical W vars e) →
      StmtLexical W vars frames front s
  | block {vars frames front id place statements} : StmtsLexical W vars frames statements →
      StmtLexical W vars frames front (.block id place statements)
  | declare {vars frames front d} : IsNew vars d → (∀ e ∈ d.initializer, ExprLexical W vars e) →
      StmtLexical W vars frames front (.declare d)
  | function {vars frames front place d f} : IsNew vars d → d.initializer = none →
      FunctionLexical W (binding d :: vars) f → StmtLexical W vars frames front (.function place d f)
  | branch {vars frames front place condition yes no} : ExprLexical W vars condition →
      StmtLexical W vars frames {} yes → (∀ s ∈ no, StmtLexical W vars frames {} s) →
      StmtLexical W vars frames front (.branch place condition yes no)
  | whileDo {vars frames front place condition body} : ExprLexical W vars condition →
      LoopLexical W vars frames front body →
      StmtLexical W vars frames front (.whileDo place condition body)
  | doWhile {vars frames front place body condition} : ExprLexical W vars condition →
      LoopLexical W vars frames front body →
      StmtLexical W vars frames front (.doWhile place body condition)
  | forLoop {vars frames front id place decls vars' condition updates body} :
      DeclarationsLexical W vars decls vars' → (∀ e ∈ condition, ExprLexical W vars' e) →
      (∀ e ∈ updates, ExprLexical W vars' e) → LoopLexical W vars' frames front body →
      StmtLexical W vars frames front (.forLoop id place decls condition updates body)
  | forIn {vars frames front id place d iterable body} : IsNew vars d → d.initializer = none →
      ExprLexical W vars iterable → LoopLexical W (binding d :: vars) frames front body →
      StmtLexical W vars frames front (.forIn id place d iterable body)
  | labeled {vars frames front id place label body} : W (.label place label) →
      id ∉ frames.flatMap Frame.labels →
      StmtLexical W vars (.label ⟨id, label⟩ :: frames) { written := some ⟨id, label⟩ } body →
      StmtLexical W vars frames front (.labeled id place label body)
  | made {vars frames written id place label body} : isJumpedOutOf body = true →
      id ∉ frames.flatMap Frame.labels →
      StmtLexical W vars frames { written, made := some ⟨id, label⟩ } body →
      StmtLexical W vars frames { written } (.labeled id place label body)
  | breakOut {vars frames front place jump target} : W (.jump place jump) →
      Goes frames jump (.out target) → StmtLexical W vars frames front (.breakOut place target)
  | continueCase {vars frames front place jump target} : W (.jump place jump) →
      Goes frames jump (.case target) → StmtLexical W vars frames front (.continueCase place target)
  | switch {vars frames front place subject cases} : ExprLexical W vars subject →
      (∀ c ∈ cases, ∀ e ∈ c.tests, ExprLexical W vars e) →
      (∀ c ∈ cases, StmtLexical W vars (.switch front (cases.map caseRef) :: frames) {} c.body) →
      StmtLexical W vars frames front (.switch place subject cases)
  | tryCatch {vars frames front place body catches} : StmtLexical W vars frames {} body →
      (∀ c ∈ catches, CatchLexical W vars frames c) →
      StmtLexical W vars frames front (.tryCatch place body catches)
  | tryFinally {vars frames front place body finalizer} : StmtLexical W vars frames {} body →
      StmtLexical W vars frames {} finalizer →
      StmtLexical W vars frames front (.tryFinally place body finalizer)

/-- A handler with what it catches in sight. -/
inductive CatchLexical (W : Mark → Prop) : List Binding → List Frame → Tree.CatchClause → Prop
  | mk {vars frames c vars'} : DeclarationsLexical W vars (caughtVars c) vars' →
      (∀ d ∈ caughtVars c, d.initializer = none) → StmtLexical W vars' frames {} c.body →
      CatchLexical W vars frames c

/-- Statements of one scope, each with what those before it declare in sight. -/
inductive StmtsLexical (W : Mark → Prop) : List Binding → List Frame → List Tree.Stmt → Prop
  | nil {vars frames} : StmtsLexical W vars frames []
  | cons {vars frames s rest} : StmtLexical W vars frames {} s →
      StmtsLexical W (declared s ++ vars) frames rest → StmtsLexical W vars frames (s :: rest)

/-- The body of a loop, with or without a label that continues of the loop leave. -/
inductive LoopLexical (W : Mark → Prop) : List Binding → List Frame → Front → Tree.Stmt → Prop
  | plain {vars frames front body} : StmtLexical W vars (.loop front none :: frames) {} body →
      LoopLexical W vars frames front body
  | labeled {vars frames front id place label body} : id ∉ frames.flatMap Frame.labels →
      (∀ r ∈ front.made, r.id ≠ id) →
      StmtLexical W vars (.loop front (some ⟨id, label⟩) :: frames) {} body →
      LoopLexical W vars frames front (.labeled id place label body)

end

end Flowgraph.Resolve
