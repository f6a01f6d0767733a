import Flowgraph.Proofs.Scoping.Sight
import Flowgraph.Tree.Walk

/-! # Where `this` occurs

The word of a tree has the same occurrences of `this` as the tree, in the same order.
-/

namespace Flowgraph.Scoping

open Flowgraph.Resolve Flowgraph.Tree

/-! ## Places -/

def Node.this? : Node → Option Position
  | .expr (.this place) => some place
  | _ => none

def Move.this? : Move → Option Position
  | this place => some place
  | _ => none

/-- The places of `this` in a walk. -/
def visitedThis (vs : List Visit) : List Position := vs.filterMap fun v => Node.this? v.2

/-- The places of `this` in a word. -/
def thisPlaces (w : List Move) : List Position := w.filterMap Move.this?

@[simp] theorem visitedThis_nil : visitedThis [] = [] := rfl

@[simp] theorem visitedThis_append (vs ws : List Visit) :
    visitedThis (vs ++ ws) = visitedThis vs ++ visitedThis ws := List.filterMap_append

@[simp] theorem visitedThis_cons (d : Nat) (n : Node) (vs : List Visit) :
    visitedThis ((d, n) :: vs) = (Node.this? n).toList ++ visitedThis vs := by
  rw [visitedThis, List.filterMap_cons]
  cases h : Node.this? n <;> simp [visitedThis]

@[simp] theorem thisPlaces_nil : thisPlaces [] = [] := rfl

@[simp] theorem thisPlaces_append (v w : List Move) :
    thisPlaces (v ++ w) = thisPlaces v ++ thisPlaces w := List.filterMap_append

@[simp] theorem thisPlaces_cons (mv : Move) (w : List Move) :
    thisPlaces (mv :: w) = mv.this?.toList ++ thisPlaces w := by
  rw [thisPlaces, List.filterMap_cons]
  cases mv.this? <;> rfl

theorem mem_visitedThis {vs : List Visit} {place : Position} :
    place ∈ visitedThis vs ↔ ∃ d, (d, .expr (.this place)) ∈ vs := by
  have hthis (n : Node) : Node.this? n = some place ↔ n = .expr (.this place) := by
    unfold Node.this?
    split <;> simp_all
  simp [visitedThis, hthis]

theorem mem_thisPlaces {w : List Move} {place : Position} :
    place ∈ thisPlaces w ↔ .this place ∈ w := by
  have hthis (mv : Move) : mv.this? = some place ↔ mv = .this place := by
    cases mv <;> simp [Move.this?]
  simp [thisPlaces, hthis]

theorem visitedThis_flatMap {α : Type} (f : α → List Visit) (xs : List α) :
    visitedThis (xs.flatMap f) = xs.flatMap fun x => visitedThis (f x) := by
  induction xs with
  | nil => rfl
  | cons x xs ih => simp [ih]

theorem thisPlaces_flatMap {α : Type} (f : α → List Move) (xs : List α) :
    thisPlaces (xs.flatMap f) = xs.flatMap fun x => thisPlaces (f x) := by
  induction xs with
  | nil => rfl
  | cons x xs ih => simp [ih]

/-! ## Walks -/

theorem walkExprs_eq (d : Nat) (es : List Expr) : walkExprs d es = es.flatMap (·.walk d) := by
  induction es with
  | nil => rfl
  | cons e es ih => rw [walkExprs, ih, List.flatMap_cons]

theorem walkNamed_eq (d : Nat) (args : List NamedArgument) :
    walkNamed d args = (args.map (·.value)).flatMap (·.walk d) := by
  induction args with
  | nil => rfl
  | cons a args ih =>
    cases a
    rw [walkNamed, ih, List.map_cons, List.flatMap_cons]

theorem walkArguments_eq (d : Nat) (args : Arguments) :
    args.walk d = (args.positional ++ args.named.map (·.value)).flatMap (·.walk d) := by
  cases args
  rw [Arguments.walk, walkExprs_eq, walkNamed_eq, List.flatMap_append]

theorem walkEntries_eq (d : Nat) (es : List MapEntry) :
    walkEntries d es = (es.flatMap fun e => [e.key, e.value]).flatMap (·.walk d) := by
  induction es with
  | nil => rfl
  | cons e es ih =>
    cases e
    simp [walkEntries, ih]

theorem visitedThis_children {e : Expr} {parts : List Expr} (h : children e = some parts) (d : Nat) :
    visitedThis (e.walk d) = visitedThis (parts.flatMap (·.walk (d + 1))) ∨
      ∃ place, e = .this place := by
  cases e with
  | this place => exact .inr ⟨place, rfl⟩
  | get | set | function | letIn => cases h
  | _ =>
    cases h
    left
    simp [Expr.walk, walkExprs_eq, walkArguments_eq, walkEntries_eq, Node.this?]

theorem visitedThis_declaration (n : Nat) (d : Declaration) :
    visitedThis (d.walk n) = visitedThis (walkOption (n + 1) d.initializer) := by
  cases d
  simp [Declaration.walk, Node.this?]

theorem walkDeclarations_append (n : Nat) (ds es : List Declaration) :
    walkDeclarations n (ds ++ es) = walkDeclarations n ds ++ walkDeclarations n es := by
  induction ds with
  | nil => rfl
  | cons d ds ih => simp [walkDeclarations, ih]

theorem visitedThis_function (n : Nat) (f : Function) :
    visitedThis (f.walk n) =
      visitedThis (walkDeclarations (n + 1) f.parameters) ++ visitedThis (walkBody (n + 1) f.body) := by
  cases f
  simp [Function.walk, Function.parameters, walkDeclarations_append, Node.this?]

theorem visitedThis_cases (n : Nat) (cases : List SwitchCase) :
    visitedThis (walkCases n cases) = cases.flatMap fun c =>
      visitedThis (walkExprs (n + 1) c.tests) ++ visitedThis (c.body.walk (n + 1)) := by
  induction cases with
  | nil => rfl
  | cons c cases ih =>
    cases c
    simp [walkCases, ih, Node.this?]

theorem visitedThis_catches (n : Nat) (catches : List CatchClause) :
    visitedThis (walkCatches n catches) = catches.flatMap fun c =>
      visitedThis (walkDeclarations (n + 1) (caughtVars c)) ++ visitedThis (c.body.walk (n + 1)) := by
  have hbinding (d : Option Declaration) : walkBinding (n + 1) d = walkDeclarations (n + 1) d.toList := by
    cases d <;> simp [walkBinding, walkDeclarations]
  induction catches with
  | nil => rfl
  | cons c catches ih =>
    cases c
    simp [walkCatches, ih, hbinding, caughtVars, walkDeclarations_append, Node.this?]

theorem visitedThis_operands {s : Stmt} {es : List Expr} (h : operands s = some es) (n : Nat) :
    visitedThis (s.walk n) = visitedThis (es.flatMap (·.walk (n + 1))) := by
  have hoption (e : Option Expr) : walkOption (n + 1) e = e.toList.flatMap (·.walk (n + 1)) := by
    cases e <;> simp [walkOption]
  cases s <;> cases h <;> simp [Stmt.walk, hoption, Node.this?]

section Trees

variable {W : Mark → Prop} {vars : List Binding}

theorem occurs_option {e : Option Expr} (n : Nat)
    (h : ∀ x ∈ e, visitedThis (x.walk n) = thisPlaces (exprMoves x)) :
    visitedThis (walkOption n e) = thisPlaces (optionMoves e) := by
  cases e with
  | none => rfl
  | some e => exact h e rfl

theorem occurs_body {b : Option Stmt} (n : Nat)
    (h : ∀ s ∈ b, visitedThis (s.walk n) = thisPlaces (stmtMoves s)) :
    visitedThis (walkBody n b) = thisPlaces (bodyMoves b) := by
  cases b with
  | none => rfl
  | some s => exact h s rfl

theorem occurs_flatMap {es : List Expr} (n : Nat)
    (h : ∀ x ∈ es, visitedThis (x.walk n) = thisPlaces (exprMoves x)) :
    visitedThis (es.flatMap (·.walk n)) = thisPlaces (es.flatMap exprMoves) := by
  rw [visitedThis_flatMap, thisPlaces_flatMap]
  exact List.flatMap_congr h

mutual

theorem occurs_expr {vars : List Binding} {e : Expr} (n : Nat) :
    ExprLexical W vars e → visitedThis (e.walk n) = thisPlaces (exprMoves e)
  | .get .. => by simp [Expr.walk, exprMoves, Node.this?, Move.this?]
  | .set _ _ hvalue => by
    simp [Expr.walk, exprMoves, Node.this?, Move.this?, occurs_expr _ hvalue]
  | .function hf => by
    simp only [Expr.walk, exprMoves, visitedThis_cons, Node.this?, Option.toList_none, List.nil_append,
      occurs_function "" _ hf]
  | .letIn _ hinit hbody => by
    simp [Expr.walk, exprMoves_letIn, visitedThis_declaration, Node.this?, Move.this?,
      occurs_option _ fun x hx => occurs_expr _ (hinit x hx), occurs_expr _ hbody]
  | .other he hparts => by
    obtain ⟨hwalk, hmoves⟩ | ⟨place, rfl⟩ : (_ ∧ _) ∨ _ :=
      match visitedThis_children he n, exprMoves_children he with
      | .inl hwalk, .inl hmoves => .inl ⟨hwalk, hmoves⟩
      | .inr hthis, _ => .inr hthis
      | _, .inr hthis => .inr hthis
    · rw [hwalk, hmoves]
      exact occurs_flatMap _ fun x hx => occurs_expr _ (hparts x hx)
    · simp [Expr.walk, exprMoves, Node.this?, Move.this?]

theorem occurs_declarations {vars vars' : List Binding} {ds : List Declaration} (n : Nat) :
    DeclarationsLexical W vars ds vars' →
      visitedThis (walkDeclarations n ds) = thisPlaces (declarationMoves ds) ∧
      visitedThis (walkDeclarations n ds) = thisPlaces (parameterMoves ds)
  | .nil => ⟨rfl, rfl⟩
  | .cons _ hinit hrest => by
    have hinit := occurs_option (n + 1) fun x hx => occurs_expr (n + 1) (hinit x hx)
    have hrest := occurs_declarations n hrest
    constructor
    · simp [walkDeclarations, visitedThis_declaration, hinit, hrest.1, Move.this?]
    · simp [walkDeclarations, visitedThis_declaration, hinit, hrest.2, Move.this?]

theorem occurs_function {vars : List Binding} {f : Function} (name : String) (n : Nat) :
    FunctionLexical W vars f → visitedThis (f.walk n) = thisPlaces (functionMoves name f)
  | .mk hparams hbody => by
    have hbody := occurs_body (n + 1) fun s hs => occurs_stmt (n + 1) (hbody s hs)
    have hparams := (occurs_declarations (n + 1) hparams).2
    rw [visitedThis_function, hparams, hbody, functionMoves_eq, signatureMoves, Function.parameters,
      parameterMoves_append]
    simp [Move.this?]

theorem occurs_stmt {vars : List Binding} {frames : List Frame} {front : Front} {s : Stmt} (n : Nat) :
    StmtLexical W vars frames front s → visitedThis (s.walk n) = thisPlaces (stmtMoves s)
  | .plain hs hes => by
    have hes := occurs_flatMap (n + 1) fun x hx => occurs_expr (n + 1) (hes x hx)
    rw [visitedThis_operands hs, hes]
    obtain hmoves | hmoves := (stmtMoves_operands hs).2
    · rw [hmoves]
    · simp [hmoves, Move.this?]
  | .block hstatements => by
    simp [Stmt.walk, stmtMoves, Node.this?, Move.this?, occurs_stmts _ hstatements]
  | .declare _ hinit => by
    simp [Stmt.walk, visitedThis_declaration, Move.this?,
      occurs_option _ fun x hx => occurs_expr _ (hinit x hx)]
  | .function _ hnone hf => by
    simp only [Stmt.walk, stmtMoves, visitedThis_append, visitedThis_cons, visitedThis_declaration, hnone,
      walkOption, visitedThis_nil, Node.this?, Option.toList_none, List.nil_append, thisPlaces_cons,
      Move.this?]
    exact occurs_function _ _ hf
  | .branch hc hyes hno => by
    simp [Stmt.walk, stmtMoves, Node.this?, occurs_expr _ hc, occurs_stmt _ hyes,
      occurs_body _ fun s hs => occurs_stmt _ (hno s hs)]
  | .whileDo hc hbody => by
    simp [Stmt.walk, stmtMoves, deeper, shallower, Node.this?, Move.this?, occurs_expr _ hc,
      occurs_loop _ hbody]
  | .doWhile hc hbody => by
    simp [Stmt.walk, stmtMoves, deeper, shallower, Node.this?, Move.this?, occurs_expr _ hc,
      occurs_loop _ hbody]
  | .forLoop hds hc hus hbody => by
    have hus := occurs_flatMap (n + 1) fun x hx => occurs_expr (n + 1) (hus x hx)
    simp [Stmt.walk, stmtMoves, deeper, shallower, Node.this?, Move.this?, walkExprs_eq, exprsMoves_eq,
      (occurs_declarations _ hds).1, occurs_option _ fun x hx => occurs_expr _ (hc x hx), hus,
      occurs_loop _ hbody]
  | .forIn _ hnone hi hbody => by
    simp [Stmt.walk, stmtMoves, deeper, shallower, Node.this?, Move.this?, visitedThis_declaration,
      hnone, walkOption, occurs_expr _ hi, occurs_loop _ hbody]
  | .labeled _ _ hbody => by simp [Stmt.walk, stmtMoves, Node.this?, occurs_stmt _ hbody]
  | .made _ _ hbody => by simp [Stmt.walk, stmtMoves, Node.this?, occurs_stmt _ hbody]
  | .breakOut .. => by simp [Stmt.walk, stmtMoves, Node.this?]
  | .continueCase .. => by simp [Stmt.walk, stmtMoves, Node.this?]
  | .switch hs htests hbodies => by
    simp only [Stmt.walk, stmtMoves, caseMoves_eq, visitedThis_append, visitedThis_cons, visitedThis_cases,
      thisPlaces_append, thisPlaces_cons, thisPlaces_nil, thisPlaces_flatMap, Node.this?, Move.this?,
      Option.toList_none, List.nil_append, List.append_nil, occurs_expr _ hs]
    refine congrArg _ (List.flatMap_congr fun c hc => ?_)
    rw [walkExprs_eq, exprsMoves_eq, occurs_stmt _ (hbodies c hc),
      occurs_flatMap _ fun x hx => occurs_expr _ (htests c hc x hx)]
  | .tryCatch hbody hcatches => by
    simp only [Stmt.walk, stmtMoves, catchMoves_eq, visitedThis_append, visitedThis_cons,
      visitedThis_catches, thisPlaces_append, thisPlaces_cons, thisPlaces_nil, thisPlaces_flatMap,
      Node.this?, Move.this?, Option.toList_none, List.nil_append, List.append_nil, occurs_stmt _ hbody]
    exact congrArg _ (List.flatMap_congr fun c hc => occurs_catch _ (hcatches c hc))
  | .tryFinally hbody hfinalizer => by
    simp [Stmt.walk, stmtMoves, Node.this?, Move.this?, occurs_stmt _ hbody, occurs_stmt _ hfinalizer]

theorem occurs_catch {vars : List Binding} {frames : List Frame} {c : CatchClause} (n : Nat) :
    CatchLexical W vars frames c →
      visitedThis (walkDeclarations n (caughtVars c)) ++ visitedThis (c.body.walk n) =
        thisPlaces (handlerMoves c)
  | .mk hds hnone hbody => by
    have hds := (occurs_declarations n hds).1
    rw [declarationMoves_plain hnone] at hds
    simp [handlerMoves, hds, occurs_stmt _ hbody, Move.this?]

theorem occurs_stmts {vars : List Binding} {frames : List Frame} {l : List Stmt} (n : Nat) :
    StmtsLexical W vars frames l → visitedThis (walkStmts n l) = thisPlaces (stmtsMoves l)
  | .nil => rfl
  | .cons hs hrest => by
    simp [walkStmts, stmtsMoves, occurs_stmt _ hs, occurs_stmts _ hrest]

theorem occurs_loop {vars : List Binding} {frames : List Frame} {front : Front} {s : Stmt} (n : Nat) :
    LoopLexical W vars frames front s → visitedThis (s.walk n) = thisPlaces (stmtMoves s)
  | .plain hbody => occurs_stmt n hbody
  | .labeled _ _ hbody => by simp [Stmt.walk, stmtMoves, Node.this?, occurs_stmt _ hbody]

end

/-! ## Members -/

/-- All nodes of a member. -/
def memberWalk : Member → List Visit
  | .field _ f => f.walk 0
  | .procedure _ p => p.walk 0
  | .constructor _ c => c.walk 0

theorem occurs_member {m : Member} (h : MemberLexical W m) (hm : hasReceiver m = false) :
    visitedThis (memberWalk m) = thisPlaces (insideMoves m) := by
  cases m with
  | field owner f =>
    have hf := occurs_option 1 fun e he => occurs_expr 1 (h e he)
    simpa [memberWalk, Field.walk, insideMoves, Node.this?] using hf
  | procedure owner p =>
    obtain ⟨f, hf, hlexical⟩ := h
    have hoccurs := occurs_function "" 1 hlexical
    simpa [memberWalk, Procedure.walk, insideMoves, hf, Node.this?, Move.this?] using hoccurs
  | constructor owner c => cases hm

end Trees

end Flowgraph.Scoping
