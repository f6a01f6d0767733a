import Flowgraph.Proofs.Resolve.Statement

/-! # Bodies are resolved lexically -/

namespace Flowgraph.Resolve

open Flowgraph.Scoping (catchMoves deeper exprMoves numbers shallower stmtMoves)
open Flowgraph.Tree (Ref)

variable {n : Nat} {vars : List Binding} {W : Mark → Prop}

/-! ## Parts of expressions -/

theorem exprLexical_invoke {place : Position} {receiver : Tree.Expr} {name : String}
    {args : List Tree.Expr} (hr : ExprLexical W vars receiver) (ha : ∀ e ∈ args, ExprLexical W vars e) :
    ExprLexical W vars (invoke place receiver name args) :=
  .other rfl (by simpa using ⟨hr, ha⟩)

theorem exprLexical_identical {place : Position} {left right : Tree.Expr}
    (hl : ExprLexical W vars left) (hr : ExprLexical W vars right) :
    ExprLexical W vars (identical place left right) :=
  .other rfl (by simpa using ⟨hl, hr⟩)

theorem ExprLexical.not {place : Position} {e : Tree.Expr} (h : ExprLexical W vars e) :
    ExprLexical W vars (.not place e) :=
  .other rfl (by simpa using h)

theorem exprLexical_binary {place : Position} {op : String} {left right : Tree.Expr}
    (hl : ExprLexical W vars left) (hr : ExprLexical W vars right) :
    ExprLexical W vars (binary place op left right) := by
  have hcall (name : String) : ExprLexical W vars (invoke place left name [right]) :=
    exprLexical_invoke hl (by simpa using hr)
  rw [binary.eq_def]
  split
  · exact (hcall _).not
  · exact exprLexical_identical hl hr
  · exact (exprLexical_identical hl hr).not
  · exact hcall _

theorem exprLexical_unary {place : Position} {op : String} {operand : Tree.Expr}
    (h : ExprLexical W vars operand) : ExprLexical W vars (unary place op operand) := by
  have hcall (name : String) : ExprLexical W vars (invoke place operand name []) :=
    exprLexical_invoke h (by simp)
  rw [unary.eq_def]
  split
  · exact h.not
  · exact .other rfl (by simp)
  · exact .other rfl (by simp)
  · exact hcall _
  · exact hcall _

theorem makes_integer (place : Position) (text : String) :
    Keeps n vars (integer place text) fun e _ => ExprLexical W vars e := by
  rw [integer]
  split
  · exact makes_pure (by simp [exprMoves]) fun _ => .other rfl (by simp)
  · exact (reports_report _).bind.gives

theorem makes_lookup (name : String) : Keeps n vars (lookup name) fun b _ => b = sight vars name :=
  makes_read (by simp) fun _ hi _ => hi.lookup name

theorem makes_isMember (name : String) : Keeps n vars (isMember name) fun _ _ => True :=
  makes_read (by simp) fun _ _ _ => trivial

theorem makes_isClass (name : String) : Keeps n vars (isClass name) fun _ _ => True :=
  makes_read (by simp) fun _ _ _ => trivial

theorem sight_name {name : String} {b : Binding} (h : some b = sight vars name) : b.ref.name = name := by
  simpa using List.find?_some h.symm

theorem makes_assignVariable {place headPlace : Position} {name : String} {value : Tree.Expr}
    (hW : W (.assigned place name)) :
    Keeps n vars (assignVariable place headPlace name value)
      (fun e _ => ExprLexical W vars value → ExprLexical W vars e) (ids value) := by
  refine (makes_lookup name).bind fun b => ?_
  split
  · rename_i b
    refine .unless (fun _ => reports_reject _ _) fun hfixed =>
      makes_pure (by simp [exprMoves]) fun F hb hvalue => ?_
    obtain rfl := sight_name hb
    obtain ⟨ref, isFixed⟩ := b
    obtain rfl : isFixed = false := by simpa using hfixed
    exact .set hW hb.symm hvalue
  · refine (makes_isMember name).bind fun known => ?_
    split
    · exact makes_pure (by simp [exprMoves]) fun _ _ _ hvalue => .other rfl (by simpa using hvalue)
    · exact (reports_undeclared _ _).bind.gives

theorem reports_invalidTarget (place : Position) : Reports (invalidTarget place) :=
  fun _ => List.cons_ne_nil _ _

/-- What stands in front of a suffix. A name that is no variable has no parts. -/
def HeadLexical (W : Mark → Prop) (vars : List Binding) : Head → Prop
  | .value e => ExprLexical W vars e
  | .static .. => True

theorem makes_headExpr (head : Head) :
    Keeps n vars head.expr (fun e _ => HeadLexical W vars head → ExprLexical W vars e)
      (ids head) := by
  cases head with
  | value e => exact makes_pure (by simp) fun _ h => h
  | static place name =>
    refine (makes_isMember name).bind fun known => ?_
    split
    · exact makes_pure (by simp [exprMoves]) fun _ _ _ => .other rfl (by simp)
    · refine (makes_isClass name).bind fun isClass => ?_
      split
      · exact makes_pure (by simp [exprMoves]) fun _ _ _ _ => .other rfl (by simp)
      · exact (reports_undeclared _ _).bind.gives

theorem makes_headOwner (head : Head) : Keeps n vars head.owner? fun _ _ => True := by
  cases head with
  | value e => exact makes_pure (by simp) fun _ => trivial
  | static place name =>
    refine (makes_isMember name).bind fun known => ?_
    split <;> exact makes_pure (by simp) fun _ _ => trivial

/-- The values among the parts of a string literal. -/
def PiecesLexical (W : Mark → Prop) (vars : List Binding) (p : Pieces) : Prop :=
  ∀ e ∈ p.done, ExprLexical W vars e

theorem PiecesLexical.flush {p : Pieces} (h : PiecesLexical W vars p) : PiecesLexical W vars p.flush := by
  rw [Pieces.flush]
  split
  · exact h
  · intro e he
    rcases List.mem_append.mp he with he | he
    · exact h e he
    · obtain rfl := List.mem_singleton.mp he
      exact .other rfl (by simp)

theorem PiecesLexical.expr {p : Pieces} {place : Position} (h : PiecesLexical W vars p) :
    ExprLexical W vars (p.expr place) := by
  have hdone : ∀ e ∈ p.flush.done, ExprLexical W vars e := h.flush
  rw [Pieces.expr]
  split
  · exact .other rfl hdone
  · cases hd : p.flush.done with
    | nil => exact .other rfl (by simp)
    | cons e rest => exact hdone e (by simp [hd])

/-- The values among arguments. -/
def ArgumentsLexical (W : Mark → Prop) (vars : List Binding) (args : Tree.Arguments) : Prop :=
  ∀ e ∈ args.positional ++ args.named.map (·.value), ExprLexical W vars e

/-! ## Parts of declarations -/

theorem makes_parameter {place : Position} {name : String} {default : ResolveM (Option Tree.Expr)}
    (h : ∀ n, Keeps n vars default fun e _ => ∀ x ∈ e, ExprLexical W vars x) :
    Makes n vars (parameter place name default) (fun d => binding d :: vars) fun d _ =>
      IsNew vars d ∧ ∀ x ∈ d.initializer, ExprLexical W vars x := by
  refine .fresh fun id _ hnew => (h _).bind fun init => ?_
  refine (makes_declare _ (by exact Nat.lt_succ_self id)).bind fun _ => ?_
  refine makes_return rfl (fun i => ?_) fun _ _ hinit => ⟨hnew, hinit⟩
  simp [List.count_cons, List.count_append]

theorem makes_catchVariable (b : Option Surface.CatchBinding) (name : Surface.CatchBinding → String) :
    Makes n vars (catchVariable b name) (fun d => afterDecls vars d.toList) fun d _ =>
      DeclarationsLexical W vars d.toList (afterDecls vars d.toList) ∧
        ∀ x ∈ d.toList, x.initializer = none := by
  cases b with
  | none => exact makes_return rfl (by simp) fun _ => ⟨.nil, by simp⟩
  | some b =>
    rw [catchVariable.eq_def]
    dsimp only
    split
    · exact makes_return rfl (by simp) fun _ => ⟨.nil, by simp⟩
    · refine .fresh fun id _ hnew => ?_
      refine (makes_declare _ (by exact Nat.lt_succ_self id)).bind fun _ => ?_
      exact makes_return rfl (by simp) fun _ _ => ⟨.cons hnew (by simp) .nil, by simp⟩

/-- Parameters in the order in which they are declared. -/
def ParametersLexical (W : Mark → Prop) (vars : List Binding) (f : Tree.Function) : Prop :=
  DeclarationsLexical W vars f.parameters (afterDecls vars f.parameters)

theorem makes_function {parameters : ResolveM Tree.Function} {body : ResolveM (Option Tree.Stmt)}
    (hp : Makes n vars parameters (fun f => afterDecls vars f.parameters) fun f _ =>
      ParametersLexical W vars f)
    (hb : ∀ vars, Keeps n vars body fun b F => ∀ s ∈ b, StmtLexical W vars F {} s) :
    Keeps n vars (function parameters body) fun f _ => FunctionLexical W vars f := by
  refine Leaves.enclosed (P := fun f F => F = [] → FunctionLexical W vars f) ?_ |>.mono ?_
  · refine hp.bind fun f => (hb _).bind fun b => ?_
    refine leaves_pure rfl (by simp) ?_
    rintro F hbody hparams rfl
    exact .mk hparams hbody
  · exact fun f _ h => h rfl

theorem Gives.secondGroup {β : Type} {J : β → State → Prop} {R : β → List Frame → Prop} {c : Prop}
    [Decidable c] [Numbered β] {params : List Surface.Parameter} {rest : Unit → ResolveM β}
    {l : List Nat} (h : params = [] ∨ ¬c → Gives n vars (rest ()) J R l) :
    Gives n vars (if c then secondGroup params >>= rest else rest ()) J R l := by
  cases params with
  | nil =>
    split
    · exact .pure_bind (h (.inl rfl))
    · exact h (.inl rfl)
  | cons p ps =>
    obtain ⟨place, _, _⟩ := p
    exact .unless (fun _ => reports_reject place _) fun hc => h (.inr hc)

theorem makes_noteConstant (d : Tree.Declaration) :
    Keeps n vars (noteConstant d) fun _ _ => True := by
  rw [noteConstant.eq_def]
  split
  · exact makes_modify (fun _ => rfl) (fun _ => rfl) fun _ => rfl
  · exact makes_pure (by simp) fun _ => trivial

theorem makes_checkLabel (place : Position) (label : String) :
    Keeps n vars (checkLabel place label) fun _ _ => True := by
  intro s hn hi
  have hcheck (targets : List Target) : Ok (forIn targets PUnit.unit fun t _ => do
      if t.label = label then reject place ("label " ++ label ++ " is already in use")
      pure (ForInStep.yield PUnit.unit)) s fun _ t => t = s := by
    induction targets with
    | nil => exact ok_pure rfl
    | cons t targets ih =>
      rw [List.forIn_cons]
      refine .bind ?_
      split
      · exact .bind (reports_reject _ _).ok
      · exact ok_pure ih
  refine .bind (ok_get (.bind ((hcheck _).mono ?_)))
  rintro _ _ rfl
  exact ok_pure ⟨.refl _, hi, fun _ _ _ _ => trivial, given_of_count (by simp)⟩

/-! ## Bodies -/

mutual

theorem makes_resolveExpr (n vars) : ∀ e, (∀ m ∈ exprMarks e, W m) →
    Keeps n vars (resolveExpr e) fun x _ => ExprLexical W vars x
  | .assign place target value, hW => by
    simp only [exprMarks, List.forall_mem_append] at hW
    obtain ⟨⟨hassigned, htarget⟩, hvalue⟩ := hW
    rw [resolveExpr]
    refine (makes_resolveExpr n vars value hvalue).bind fun v => ?_
    exact (makes_resolveAssign n vars place v target hassigned htarget)
  | .conditional place condition yes no, hW => by
    simp only [exprMarks, List.forall_mem_append] at hW
    obtain ⟨⟨hcondition, hyes⟩, hno⟩ := hW
    rw [resolveExpr]
    refine (makes_resolveExpr n vars condition hcondition).bind fun c => ?_
    refine (makes_resolveExpr n vars yes hyes).bind fun y => ?_
    refine (makes_resolveExpr n vars no hno).bind fun z => makes_pure (by simp [exprMoves]) fun _ hz hy hc => ?_
    exact .other rfl (by simpa using ⟨hc, hy, hz⟩)
  | .logical place op left right, hW => by
    simp only [exprMarks, List.forall_mem_append] at hW
    rw [resolveExpr]
    refine (makes_resolveExpr n vars left hW.1).bind fun l => ?_
    refine (makes_resolveExpr n vars right hW.2).bind fun r => makes_pure (by simp [exprMoves]) fun _ hr hl => ?_
    exact .other rfl (by simpa using ⟨hl, hr⟩)
  | .binary place op left right, hW => by
    simp only [exprMarks, List.forall_mem_append] at hW
    rw [resolveExpr]
    refine (makes_resolveExpr n vars left hW.1).bind fun l => ?_
    refine (makes_resolveExpr n vars right hW.2).bind fun r => makes_pure (by simp) fun _ hr hl => ?_
    exact exprLexical_binary hl hr
  | .isType place operand className, hW => by
    rw [resolveExpr]
    refine (makes_resolveExpr n vars operand hW).bind fun x => makes_pure (by simp [exprMoves]) fun _ hx => ?_
    exact .other rfl (by simpa using hx)
  | .asType place operand className, hW => by
    rw [resolveExpr]
    refine (makes_resolveExpr n vars operand hW).bind fun x => makes_pure (by simp [exprMoves]) fun _ hx => ?_
    exact .other rfl (by simpa using hx)
  | .unary place op operand, hW => by
    rw [resolveExpr]
    refine (makes_resolveExpr n vars operand hW).bind fun x => makes_pure (by simp) fun _ hx => ?_
    exact exprLexical_unary hx
  | .chain head suffixes, hW => by
    simp only [exprMarks, List.forall_mem_append] at hW
    rw [resolveExpr]
    refine (makes_resolveHead n vars head hW.1).bind fun h => ?_
    exact makes_resolveSuffixes n vars h suffixes _ hW.2

theorem makes_resolveOption (n vars) : ∀ e, (∀ m ∈ optionMarks e, W m) →
    Keeps n vars (resolveOption e) fun x _ => ∀ y ∈ x, ExprLexical W vars y
  | none, _ => by
    rw [resolveOption]
    exact makes_pure (by simp) (by simp)
  | some e, hW => by
    rw [resolveOption]
    exact (makes_resolveExpr n vars e hW).bind fun x => makes_pure (by simp) fun _ hx => by simpa using hx

theorem makes_resolveExprs (n vars) : ∀ es, (∀ m ∈ exprsMarks es, W m) →
    Keeps n vars (resolveExprs es) fun l _ => ∀ x ∈ l, ExprLexical W vars x
  | [], _ => by
    rw [resolveExprs]
    exact makes_pure (by simp) (by simp)
  | e :: es, hW => by
    simp only [exprsMarks, List.forall_mem_append] at hW
    rw [resolveExprs]
    refine (makes_resolveExpr n vars e hW.1).bind fun x => ?_
    refine (makes_resolveExprs n vars es hW.2).bind fun l => makes_pure (by simp) fun _ hl hx => ?_
    exact List.forall_mem_cons.mpr ⟨hx, hl⟩

theorem makes_resolveAssign (n vars) (place : Position) (value : Tree.Expr) :
    ∀ target, (∀ m ∈ assignedMarks place target, W m) → (∀ m ∈ exprMarks target, W m) →
    Keeps n vars (resolveAssign place value target)
      (fun x _ => ExprLexical W vars value → ExprLexical W vars x) (ids value)
  | .chain head suffixes, hassigned, hW => by
    simp only [exprMarks, List.forall_mem_append] at hW
    have hhead := makes_resolveHead n vars head hW.1
    have hsuffixes (h : Head) := makes_resolveSuffixes n vars h suffixes (suffixes.length - 1) hW.2
    have hindex := makes_resolveLastIndex n vars suffixes hW.2
    rw [resolveAssign.eq_def]
    split
    · rename_i headPlace name h
      obtain ⟨rfl, rfl⟩ := Surface.Expr.chain.inj h
      exact makes_assignVariable (hassigned _ (by simp [assignedMarks]))
    · rename_i h
      obtain ⟨rfl, rfl⟩ := Surface.Expr.chain.inj h
      split
      · rename_i className member _
        have hset (h : Head) : Keeps n vars (resolveSuffixes h suffixes (suffixes.length - 1) >>= fun r =>
            if className = "" then pure (.propertySet place r member value)
            else pure (.directSet place r ⟨className, member⟩ value)) (fun x _ =>
              HeadLexical W vars h → ExprLexical W vars value → ExprLexical W vars x)
              (ids value ++ ids h) := by
          refine (hsuffixes h).carry fun r => ?_
          split <;> exact makes_pure (by simp [exprMoves, List.count_append, Nat.add_comm])
            fun _ hr hh hv => .other rfl (by simpa using ⟨hr hh, hv⟩)
        refine hhead.bind fun h => ?_
        dsimp only
        split
        · refine (makes_headOwner h).bind fun owner => ?_
          split
          · exact makes_pure (by simp [exprMoves, List.count_append])
              fun _ _ _ hv => .other rfl (by simpa using hv)
          · exact (hset h).into (by simp) fun _ _ hx _ => hx
        · exact hset h
      · refine hhead.bind fun h => (hsuffixes h).carry fun r => hindex.bind fun i => ?_
        refine makes_pure (fun j => ?_) fun _ hi hr hh hv =>
          exprLexical_invoke (hr hh) (by simpa using ⟨hi, hv⟩)
        simp [List.count_append]
        omega
      · exact (reports_invalidTarget place).gives
    · exact (reports_invalidTarget place).gives
  | .assign .., _, _ | .conditional .., _, _ | .logical .., _, _ | .binary .., _, _ | .isType .., _, _
  | .asType .., _, _ | .unary .., _, _ => (reports_invalidTarget place).gives

theorem makes_resolveLastIndex (n vars) : ∀ suffixes, (∀ m ∈ suffixesMarks suffixes, W m) →
    Keeps n vars (resolveLastIndex suffixes) fun x _ => ExprLexical W vars x
  | [], _ | [.member ..], _ | [.direct ..], _ | [.call ..], _ => makes_pure (by simp [exprMoves]) fun _ => .other rfl (by simp)
  | [.index _ index], hW => by
    simp only [suffixesMarks, suffixMarks, List.append_nil] at hW
    rw [resolveLastIndex]
    exact makes_resolveExpr n vars index hW
  | s :: t :: rest, hW => by
    rw [suffixesMarks, List.forall_mem_append] at hW
    rw [resolveLastIndex]
    · exact makes_resolveLastIndex n vars (t :: rest) hW.2
    · simp

theorem makes_resolveSuffixes (n vars) (head : Head) :
    ∀ suffixes count, (∀ m ∈ suffixesMarks suffixes, W m) →
    Keeps n vars (resolveSuffixes head suffixes count)
      (fun x _ => HeadLexical W vars head → ExprLexical W vars x) (ids head)
  | s :: rest, count + 1, hW => by
    simp only [suffixesMarks, List.forall_mem_append] at hW
    rw [resolveSuffixes]
    refine (makes_resolveSuffix n vars head s hW.1).then fun e => ?_
    refine (makes_resolveSuffixes n vars (.value e) rest count hW.2).mono fun x _ hx he hhead => ?_
    exact hx (he hhead)
  | [], _, _ => by
    rw [resolveSuffixes]
    exact makes_headExpr head
  | _ :: _, 0, _ => by
    rw [resolveSuffixes]
    · exact makes_headExpr head
    · simp

theorem makes_resolveSuffix (n vars) (head : Head) : ∀ s, (∀ m ∈ suffixMarks s, W m) →
    Keeps n vars (resolveSuffix head s)
      (fun x _ => HeadLexical W vars head → ExprLexical W vars x) (ids head)
  | .direct place className name args, _ => by
    rw [resolveSuffix]
    refine (makes_headExpr (W := W) head).then fun e => ?_
    refine .unless (fun _ => reports_reject _ _) fun _ => makes_pure (by simp [exprMoves]) fun _ he hhead => ?_
    exact .other rfl (by simpa using he hhead)
  | .member place name (some args), hW => by
    have hargs := makes_resolveArguments n vars args hW
    rw [resolveSuffix]
    refine (makes_headOwner head).bind fun owner => ?_
    split
    · exact hargs.bind fun a => makes_pure (by simp [exprMoves]) fun _ ha _ _ => .other rfl ha
    · refine .weaken ((makes_headExpr (W := W) head).then fun e => hargs.bind fun a => ?_) (by simp)
      exact makes_pure (by simp [exprMoves]) fun _ ha he _ hhead =>
        .other rfl (List.forall_mem_cons.mpr ⟨he hhead, ha⟩)
  | .member place name none, _ => by
    rw [resolveSuffix]
    refine (makes_headOwner head).bind fun owner => ?_
    split
    · exact makes_pure (by simp [exprMoves]) fun _ _ _ => .other rfl (by simp)
    · refine .weaken ((makes_headExpr (W := W) head).then fun e => ?_) (by simp)
      exact makes_pure (by simp [exprMoves]) fun _ he _ hhead => .other rfl (by simpa using he hhead)
  | .call place args, hW => by
    have hargs := makes_resolveArguments n vars args hW
    cases head with
    | static =>
      rw [resolveSuffix]
      exact hargs.bind fun a => makes_pure (by simp [exprMoves]) fun _ ha _ => .other rfl ha
    | value e =>
      rw [resolveSuffix]
      exact hargs.bind fun a => makes_pure (by simp [exprMoves]) fun _ ha he => .other rfl (List.forall_mem_cons.mpr ⟨he, ha⟩)
  | .index place index, hW => by
    rw [resolveSuffix]
    refine (makes_headExpr (W := W) head).then fun e => ?_
    refine (makes_resolveExpr n vars index hW).bind fun i => makes_pure (by simp) fun _ hi he hhead => ?_
    exact exprLexical_invoke (he hhead) (by simpa using hi)

theorem makes_resolveHead (n vars) : ∀ e, (∀ m ∈ primaryMarks e, W m) →
    Keeps n vars (resolveHead e) fun x _ => HeadLexical W vars x
  | .ident place name, hW => by
    rw [resolveHead]
    refine (makes_lookup name).bind fun b => ?_
    split
    · rename_i b
      refine makes_pure (by simp [exprMoves]) fun _ hb => ?_
      obtain rfl := sight_name hb
      exact .get (hW _ (by simp [primaryMarks])) hb.symm rfl
    · exact makes_pure (by simp) fun _ _ => trivial
  | .null _, _ | .bool .., _ | .this _, _ | .float .., _ | .symbol .., _ | .typeName .., _
  | .rethrow _, _ => by
    rw [resolveHead]
    exact makes_pure (by simp [exprMoves]) fun _ => .other rfl (by simp)
  | .integer place text, _ => by
    rw [resolveHead]
    exact (makes_integer place text).bind fun e => makes_pure (by simp) fun _ he => he
  | .string place parts, hW => by
    rw [resolveHead]
    refine (makes_resolveParts n vars { textPlace := place } parts hW).bind fun p => ?_
    exact makes_pure (count_expr p place) fun _ hp => (hp (by simp [PiecesLexical])).expr
  | .new place className name args, hW => by
    rw [resolveHead]
    exact (makes_resolveArguments n vars args hW).bind fun a => makes_pure (by simp [exprMoves]) fun _ ha => .other rfl ha
  | .constNew place target name args, hW => by
    rw [resolveHead]
    refine (makes_resolveArguments n vars args hW).bind fun a => ?_
    refine (makes_isClass target).bind fun isClass => ?_
    split
    · exact makes_pure (by simp [exprMoves]) fun _ _ ha => .other rfl ha
    · exact makes_pure (by simp [exprMoves]) fun _ _ ha => .other rfl ha
  | .list place isConst elements, hW => by
    rw [resolveHead]
    exact (makes_resolveExprs n vars elements hW).bind fun l => makes_pure (by simp [exprMoves]) fun _ hl => .other rfl hl
  | .map place isConst entries, hW => by
    rw [resolveHead]
    refine (makes_resolveEntries n vars entries hW).bind fun l => makes_pure (by simp [exprMoves]) fun _ hl => .other rfl ?_
    intro e he
    obtain ⟨entry, hentry, he⟩ := List.mem_flatMap.mp he
    have hentry := hl entry hentry
    rcases List.mem_pair.mp he with rfl | rfl
    · exact hentry.1
    · exact hentry.2
  | .function place params body, hW => by
    simp only [primaryMarks, List.forall_mem_append] at hW
    rw [resolveHead]
    refine (makes_function (makes_resolveParameters n vars params hW.1)
      fun vars => makes_resolveBody n vars place false body hW.2).bind fun f => ?_
    exact makes_pure (by simp [exprMoves]) fun _ hf => .function hf
  | .letIn place name value body, hW => by
    simp only [primaryMarks, List.forall_mem_append] at hW
    rw [resolveHead]
    refine (makes_resolveExpr n vars value hW.1).bind fun v => Leaves.inScope ?_
    refine .fresh fun id _ hnew => ?_
    refine (makes_declare _ (by exact Nat.lt_succ_self id)).bind fun _ => ?_
    refine (makes_resolveExpr _ _ body hW.2).bind fun b => ?_
    exact leaves_pure rfl (by simp [exprMoves])
      fun _ hb _ hv => .letIn hnew (by simpa using hv) hb
  | .throw place value, hW => by
    rw [resolveHead]
    refine (makes_resolveExpr n vars value hW).bind fun v => makes_pure (by simp [exprMoves]) fun _ hv => ?_
    exact .other rfl (by simpa using hv)
  | .paren _ inner, hW => by
    rw [resolveHead]
    exact (makes_resolveExpr n vars inner hW).bind fun x => makes_pure (by simp) fun _ hx => hx

theorem makes_resolveParts (n vars) (p : Pieces) : ∀ parts, (∀ m ∈ partsMarks parts, W m) →
    Keeps n vars (resolveParts p parts)
      (fun q _ => PiecesLexical W vars p → PiecesLexical W vars q) (ids p)
  | [], _ => by
    rw [resolveParts]
    exact makes_pure (by simp) fun _ hp => hp
  | .chars _ text :: rest, hW => by
    rw [resolveParts]
    exact makes_resolveParts n vars { p with text := p.text ++ text } rest hW
  | .escaped _ text :: rest, hW => by
    rw [resolveParts]
    exact makes_resolveParts n vars { p with text := p.text ++ unescape text } rest hW
  | .interpolation place value :: rest, hW => by
    simp only [partsMarks, List.forall_mem_append] at hW
    rw [resolveParts]
    refine (makes_resolveExpr n vars value hW.1).bind fun v => ?_
    refine (makes_resolveParts n vars _ rest hW.2).into (by simp) fun q _ hq hv hp => hq fun e he => ?_
    rcases List.mem_append.mp he with he | he
    · exact hp.flush e he
    · exact List.mem_singleton.mp he ▸ hv

theorem makes_resolveEntries (n vars) : ∀ entries, (∀ m ∈ entriesMarks entries, W m) →
    Keeps n vars (resolveEntries entries) fun l _ =>
      ∀ e ∈ l, ExprLexical W vars e.key ∧ ExprLexical W vars e.value
  | [], _ => by
    rw [resolveEntries]
    exact makes_pure (by simp) (by simp)
  | .mk key value :: rest, hW => by
    simp only [entriesMarks, List.forall_mem_append] at hW
    rw [resolveEntries]
    refine (makes_resolveExpr n vars key hW.1.1).bind fun k => ?_
    refine (makes_resolveExpr n vars value hW.1.2).bind fun v => ?_
    refine (makes_resolveEntries n vars rest hW.2).bind fun l => makes_pure (by simp) fun _ hl hv hk => ?_
    exact List.forall_mem_cons.mpr ⟨⟨hk, hv⟩, hl⟩

theorem makes_resolveArguments (n vars) : ∀ args, (∀ m ∈ argumentsMarks args, W m) →
    Keeps n vars (resolveArguments args) fun a _ => ArgumentsLexical W vars a
  | .mk _ items, hW => by
    rw [resolveArguments]
    exact (makes_resolveItems n vars {} items hW).mono fun a _ ha => ha (by simp [ArgumentsLexical])

theorem makes_resolveItems (n vars) (args : Tree.Arguments) :
    ∀ items, (∀ m ∈ itemsMarks items, W m) →
    Keeps n vars (resolveItems args items)
      (fun a _ => ArgumentsLexical W vars args → ArgumentsLexical W vars a) (ids args)
  | [], _ => by
    rw [resolveItems]
    exact makes_pure (by simp) fun _ ha => ha
  | .mk place name value :: rest, hW => by
    simp only [itemsMarks, List.forall_mem_append] at hW
    rw [resolveItems]
    refine (makes_resolveExpr n vars value hW.1).bind fun v => ?_
    split
    · refine .unless (fun _ => reports_reject _ _) fun _ => ?_
      refine (makes_resolveItems n vars _ rest hW.2).into (fun i => ?_) fun a _ ha hv hargs => ha ?_
      · simp [List.count_append]
        omega
      · simp only [ArgumentsLexical, List.forall_mem_append, List.forall_mem_singleton] at hargs ⊢
        exact ⟨⟨hargs.1, hv⟩, hargs.2⟩
    · refine .unless (fun _ => reports_reject _ _) fun _ => ?_
      refine (makes_resolveItems n vars _ rest hW.2).into (by simp) fun a _ ha hv hargs => ha ?_
      simp only [ArgumentsLexical, List.forall_mem_append, List.map_append, List.map_cons, List.map_nil,
        List.forall_mem_singleton] at hargs ⊢
      exact ⟨hargs.1, hargs.2, hv⟩

theorem makes_resolveParameters (n vars) : ∀ params, (∀ m ∈ parametersMarks params, W m) →
    Makes n vars (resolveParameters params) (fun f => afterDecls vars f.parameters) fun f _ =>
      ParametersLexical W vars f
  | .mk place groups, hW => by
    rw [resolveParameters]
    refine .node fun id => ?_
    refine (makes_resolveGroups _ vars {} (fun _ => rfl) groups hW).bind fun lists => ?_
    exact makes_return rfl (by simp) fun _ h => h .nil

theorem makes_resolveGroups (n vars) (lists : ParameterLists)
    (hnamed : lists.hasOptional = false → lists.named = []) :
    ∀ groups, (∀ m ∈ groupsMarks groups, W m) →
    Makes n (afterDecls vars (lists.positional ++ lists.named)) (resolveGroups lists groups)
      (fun l => afterDecls vars (l.positional ++ l.named))
      (fun l _ => DeclarationsLexical W vars (lists.positional ++ lists.named)
          (afterDecls vars (lists.positional ++ lists.named)) →
        DeclarationsLexical W vars (l.positional ++ l.named) (afterDecls vars (l.positional ++ l.named)))
      (ids lists)
  | [], _ => by
    rw [resolveGroups]
    exact makes_return rfl (by simp) fun _ h => h
  | .required (.mk place name default) :: rest, hW => by
    simp only [groupsMarks, List.forall_mem_append] at hW
    rw [resolveGroups]
    refine .unless (fun _ => reports_reject _ _) fun hoptional => ?_
    obtain ⟨positional, required, named, hasOptional⟩ := lists
    obtain rfl : named = [] := hnamed (by simpa using hoptional)
    refine (makes_parameter fun n => makes_resolveOption n _ default hW.1).bind fun d => ?_
    have hrest := makes_resolveGroups n vars ⟨positional ++ [d], required + 1, [], hasOptional⟩
      (fun _ => rfl) rest hW.2
    simp only [List.append_nil, afterDecls_append] at hrest ⊢
    exact hrest.into (by simp) fun l _ hl hd hbefore => hl (hbefore.append (.cons hd.1 hd.2 .nil))
  | .optional [] :: rest, hW => by
    rw [resolveGroups]
    refine .secondGroup fun _ => ?_
    rw [resolveParameterList]
    refine .pure_bind ?_
    rw [List.append_nil]
    exact makes_resolveGroups n vars { lists with hasOptional := true } (by simp) rest hW
  | .optional (p :: ps) :: rest, hW => by
    simp only [groupsMarks, List.forall_mem_append] at hW
    rw [resolveGroups]
    refine .secondGroup fun hoptional => ?_
    obtain ⟨positional, required, named, hasOptional⟩ := lists
    obtain rfl : named = [] := hnamed (by simpa using hoptional)
    refine (makes_resolveParameterList n _ (p :: ps) hW.1).bind fun ds => ?_
    have hrest := makes_resolveGroups n vars ⟨positional ++ ds, required, [], true⟩
      (fun _ => rfl) rest hW.2
    simp only [List.append_nil, afterDecls_append] at hrest ⊢
    exact hrest.into (by simp) fun l _ hl hds hbefore => hl (hbefore.append hds)
  | .named params :: rest, hW => by
    simp only [groupsMarks, List.forall_mem_append] at hW
    rw [resolveGroups]
    refine .secondGroup fun _ => ?_
    refine (makes_resolveParameterList n _ params hW.1).bind fun ds => ?_
    have hrest := makes_resolveGroups n vars
      { lists with named := lists.named ++ ds, hasOptional := true } (by simp) rest hW.2
    rw [← List.append_assoc, afterDecls_append] at hrest
    exact hrest.into (by simp) fun l _ hl hds hbefore => hl (hbefore.append hds)

theorem makes_resolveParameterList (n vars) : ∀ params, (∀ m ∈ parameterMarks params, W m) →
    Makes n vars (resolveParameterList params) (afterDecls vars) fun ds _ =>
      DeclarationsLexical W vars ds (afterDecls vars ds)
  | [], _ => by
    rw [resolveParameterList]
    exact makes_return rfl (by simp) fun _ => .nil
  | .mk place name default :: rest, hW => by
    simp only [parameterMarks, List.forall_mem_append] at hW
    rw [resolveParameterList]
    refine (makes_parameter fun n => makes_resolveOption n vars default hW.1).bind fun d => ?_
    refine (makes_resolveParameterList n _ rest hW.2).bind fun ds => ?_
    exact makes_return rfl (by simp) fun _ hds hd => .cons hd.1 hd.2 hds

theorem makes_resolveBody (n vars) (place : Position) (isExternal : Bool) :
    ∀ body, (∀ m ∈ bodyMarks body, W m) →
    Keeps n vars (resolveBody place isExternal body) fun b F => ∀ s ∈ b, StmtLexical W vars F {} s
  | .block body, hW => by
    rw [resolveBody]
    refine (makes_resolveBlock n vars body hW).bind fun b _ => ?_
    refine .unless (fun _ => reports_reject _ _) fun _ => makes_pure (by simp) fun _ hb => ?_
    simpa using hb {}
  | .arrow arrowPlace value, hW => by
    rw [resolveBody]
    refine (makes_resolveExpr n vars value hW).bind fun v => ?_
    refine .unless (fun _ => reports_reject _ _) fun _ =>
      makes_pure (by simp [stmtMoves]) fun _ hv => ?_
    simpa using StmtLexical.plain rfl (by simpa using hv)
  | .none _, _ => by
    rw [resolveBody]
    exact .unless (fun _ => reports_report _) fun _ => makes_pure (by simp) fun _ => by simp

theorem makes_resolveBlock (n vars) : ∀ b, (∀ m ∈ blockMarks b, W m) →
    Gives n vars (resolveBlock b) (fun s t => declared s = [] ∧ Inv t vars) fun s F =>
      ∀ front, StmtLexical W vars F front s
  | .mk place statements, hW => by
    rw [resolveBlock]
    refine .node fun id => ?_
    refine (makes_resolveStmts _ vars statements hW).leaves.inScope.bind fun l => ?_
    exact gives_pure (fun _ hi => ⟨rfl, hi⟩) (by simp [stmtMoves]) fun _ hl _ => .block hl

theorem makes_resolveStmts (n vars) : ∀ l, (∀ m ∈ stmtsMarks l, W m) →
    Makes n vars (resolveStmts l) (afterStmts vars) fun l F => StmtsLexical W vars F l
  | [], _ => by
    rw [resolveStmts]
    exact makes_return rfl (by simp) fun _ => .nil
  | s :: rest, hW => by
    simp only [stmtsMarks, List.forall_mem_append] at hW
    rw [resolveStmts]
    refine (makes_resolveStmt n vars "" s hW.1).bind fun l => ?_
    refine (makes_resolveStmts n _ rest hW.2).bind fun r => ?_
    exact makes_return (afterStmts_append l r) (by simp) fun _ hr hl => (hl.many rfl).append hr

theorem makes_resolveElse (n vars) : ∀ s, (∀ m ∈ elseMarks s, W m) →
    Keeps n vars (resolveElse s) fun x F => ∀ y ∈ x, StmtLexical W vars F {} y
  | none, _ => by
    rw [resolveElse]
    exact makes_pure (by simp) (by simp)
  | some s, hW => by
    rw [resolveElse]
    refine (makes_plain (makes_resolveStmt n vars "" s hW)).bind fun x => ?_
    exact makes_pure (by simp) fun _ hx => by simpa using hx

theorem makes_resolveStmt (n vars) (loopLabel : String) : ∀ s, (∀ m ∈ stmtMarks s, W m) →
    Makes n vars (resolveStmt loopLabel s) (afterStmts vars) (Found W vars loopLabel s)
  | .block body, hW => by
    rw [resolveStmt]
    refine (makes_resolveBlock n vars body hW).bind fun b hb => ?_
    exact makes_return (by simp [afterStmts, hb]) (by simp) fun _ hb => .of_one fun _ _ => hb _
  | .empty place, _ => by
    rw [resolveStmt]
    exact makes_return rfl (by simp [stmtMoves]) fun _ => .of_one fun _ _ => .plain rfl (by simp)
  | .declare _ kind declarators, hW => by
    rw [resolveStmt]
    refine (makes_resolveDeclarators n vars kind declarators hW).mono ?_
    rintro _ F ⟨ds, rfl, hds⟩
    exact .of_declare rfl hds
  | .function place name params body, hW => by
    simp only [stmtMarks, List.forall_mem_append] at hW
    rw [resolveStmt]
    refine .fresh fun id _ hnew => ?_
    refine (makes_declare _ (by exact Nat.lt_succ_self id)).bind fun _ => ?_
    refine (makes_function (makes_resolveParameters _ _ params hW.1)
      fun vars => makes_resolveBody _ vars place false body hW.2).bind fun f => ?_
    exact makes_return rfl (by simp [stmtMoves, List.count_cons, Nat.add_comm])
      fun _ hf _ => .of_one fun _ _ => .function hnew rfl hf
  | .branch place condition yes no, hW => by
    simp only [stmtMarks, List.forall_mem_append] at hW
    rw [resolveStmt]
    refine (makes_resolveExpr n vars condition hW.1.1).bind fun c => ?_
    refine (makes_plain (makes_resolveStmt n vars "" yes hW.1.2)).bind fun y => ?_
    refine (makes_resolveElse n vars no hW.2).bind fun z => makes_return rfl (by simp [stmtMoves]) fun _ hz hy hc => ?_
    exact .of_one fun _ _ => .branch hc hy hz
  | .whileDo place condition body, hW => by
    simp only [stmtMarks, List.forall_mem_append] at hW
    rw [resolveStmt]
    refine (makes_resolveExpr n vars condition hW.1).bind fun c => ?_
    refine (makes_loopBody (makes_plain (makes_resolveStmt n vars "" body hW.2))).bind fun x => ?_
    refine makes_return (afterStmts_wrapBreak rfl) (by simp [stmtMoves, deeper, shallower])
      fun _ hx hc => ?_
    exact .of_one fun written hnames =>
      stmtLexical_wrapBreak rfl hx.1 (.whileDo hc (hx.2 _ rfl (hnames rfl)))
  | .doWhile place body condition, hW => by
    simp only [stmtMarks, List.forall_mem_append] at hW
    rw [resolveStmt]
    refine (makes_loopBody (makes_plain (makes_resolveStmt n vars "" body hW.2))).bind fun x => ?_
    refine (makes_resolveExpr n vars condition hW.1).bind fun c => ?_
    refine makes_return (afterStmts_wrapBreak rfl) (by simp [stmtMoves, deeper, shallower])
      fun _ hc hx => ?_
    exact .of_one fun written hnames =>
      stmtLexical_wrapBreak rfl hx.1 (.doWhile hc (hx.2 _ rfl (hnames rfl)))
  | .forIn place varPlace kind name iterable body, hW => by
    simp only [stmtMarks, List.forall_mem_append] at hW
    rw [resolveStmt]
    refine (makes_resolveExpr n vars iterable hW.1).bind fun i => Leaves.inScope ?_
    refine .fresh fun id _ hnew => ?_
    refine (makes_declare _ (by exact Nat.lt_succ_self id)).bind fun _ => .node fun _ => ?_
    refine (makes_loopBody (makes_plain (makes_resolveStmt _ _ "" body hW.2))).bind fun x => ?_
    refine leaves_pure (afterStmts_wrapBreak rfl) (by simp [stmtMoves, deeper, shallower])
      fun _ hx _ hi => ?_
    exact .of_one fun written hnames =>
      stmtLexical_wrapBreak rfl hx.1 (.forIn hnew rfl hi (hx.2 _ rfl (hnames rfl)))
  | .forLoop place kind init condition updates body, hW => by
    simp only [stmtMarks, List.forall_mem_append] at hW
    obtain ⟨⟨⟨hinit, hcondition⟩, hupdates⟩, hbody⟩ := hW
    rw [resolveStmt]
    refine Leaves.inScope (.node fun id => ?_)
    refine (makes_resolveLoopVariables _ vars kind init hinit).bind fun ds => ?_
    refine (makes_resolveOption _ _ condition hcondition).bind fun c => ?_
    refine (makes_resolveExprs _ _ updates hupdates).bind fun us => ?_
    refine (makes_loopBody (makes_plain (makes_resolveStmt _ _ "" body hbody))).bind fun x => ?_
    refine leaves_pure (afterStmts_wrapBreak rfl) (by simp [stmtMoves, deeper, shallower])
      fun _ hx hus hc hds => ?_
    exact .of_one fun written hnames =>
      stmtLexical_wrapBreak rfl hx.1 (.forLoop hds hc hus (hx.2 _ rfl (hnames rfl)))
  | .switch place subject cases, hW => by
    simp only [stmtMarks, List.forall_mem_append] at hW
    rw [resolveStmt]
    refine (makes_resolveExpr n vars subject hW.1).bind fun subject => ?_
    refine (makes_resolveCaseHeads n vars [] cases hW.2).bind fun heads => ?_
    refine ((makes_resolveCaseBodies n vars heads cases hW.2).targeted rfl).carry fun x => ?_
    refine makes_return (afterStmts_wrapBreak rfl) (by simp [stmtMoves]) ?_
    rintro F ⟨hleft, hx⟩ ⟨hlength, htests⟩ hsubject
    refine .of_one fun _ _ => stmtLexical_switch hleft hsubject fun f hf => ?_
    obtain ⟨hrefs, hparts⟩ := hx f hf hlength
    refine ⟨hrefs, fun c hc => ⟨?_, (hparts c hc).2⟩⟩
    obtain ⟨h, hh, heq⟩ := (hparts c hc).1
    exact heq ▸ htests h hh
  | .breakOut place label, hW => by
    rw [resolveStmt]
    refine (makes_breakStmt place label (hW _ (by simp [stmtMarks]))).bind fun x => ?_
    exact makes_return rfl (by simp) fun _ hx => .of_one fun _ _ => hx _
  | .continueOn place label, hW => by
    rw [resolveStmt]
    refine (makes_continueStmt place label (hW _ (by simp [stmtMarks]))).bind fun x => ?_
    exact makes_return rfl (by simp) fun _ hx => .of_one fun _ _ => hx _
  | .giveBack place value, hW => by
    rw [resolveStmt]
    refine (makes_resolveOption n vars value hW).bind fun v => makes_return rfl (by simp [stmtMoves]) fun _ hv => ?_
    exact .of_one fun _ _ => .plain rfl (by simpa using hv)
  | .attempt place body catches finalizer, hW => by
    simp only [stmtMarks, List.forall_mem_append] at hW
    rw [resolveStmt]
    refine .unless (fun _ => reports_reject _ _) fun _ => ?_
    refine (makes_resolveBlock n vars body hW.1.1).bind fun b hb => ?_
    refine (makes_resolveCatches n vars catches hW.1.2).bind fun clauses => ?_
    refine (makes_resolveFinalizer n vars finalizer hW.2).bind fun fin => ?_
    have hinner (F : List Frame) (front : Front) (hb : ∀ front, StmtLexical W vars F front b)
        (hclauses : ∀ c ∈ clauses, CatchLexical W vars F c) : StmtLexical W vars F front
          (if catches.isEmpty then b else .tryCatch place b clauses) := by
      split
      · exact hb front
      · exact .tryCatch (hb {}) hclauses
    have hids (i : Nat) : (numbers (stmtMoves (if catches.isEmpty then b
        else .tryCatch place b clauses))).count i ≤ (ids b).count i + (ids clauses).count i := by
      split
      · exact Nat.le_add_right _ _
      · simp [stmtMoves]
    split
    · refine makes_return ?_ (by simpa using hids) fun F _ hclauses hb =>
        .of_one fun _ _ => hinner F _ hb hclauses
      split
      · simp [afterStmts, hb]
      · rfl
    · refine makes_return rfl (by simpa [stmtMoves, ← Nat.add_assoc] using hids)
        fun F hfin hclauses hb => .of_one fun _ _ => ?_
      exact .tryFinally (hinner F _ hb hclauses) (hfin _ rfl)
  | .assert place condition message, hW => by
    simp only [stmtMarks, List.forall_mem_append] at hW
    rw [resolveStmt]
    refine (makes_resolveExpr n vars condition hW.1).bind fun c => ?_
    refine (makes_resolveOption n vars message hW.2).bind fun m => makes_return rfl (by simp [stmtMoves]) fun _ hm hc => ?_
    exact .of_one fun _ _ => .plain rfl (List.forall_mem_cons.mpr ⟨hc, by simpa using hm⟩)
  | .yield place value, hW => by
    rw [resolveStmt]
    refine (makes_resolveExpr n vars value hW).bind fun v => makes_return rfl (by simp [stmtMoves]) fun _ hv => ?_
    exact .of_one fun _ _ => .plain rfl (by simpa using hv)
  | .labeled place label body, hW => by
    simp only [stmtMarks, List.forall_mem_cons] at hW
    rw [resolveStmt]
    refine (makes_checkLabel place label).bind fun _ => ?_
    have hbody (k : Nat) : Makes k vars
        (nested body.place (resolveStmt (if isLoop body then label else "") body)) (fun _ => vars) _ :=
      makes_nested (fun hloop => by simp [hloop])
        (makes_resolveStmt k vars (if isLoop body then label else "") body hW.2)
    refine Makes.labeled (g := fun id x => [.labeled id place label x]) (B := afterStmts vars) label hbody
      (fun _ _ => rfl) (by simp [stmtMoves]) ?_
    intro id x F hid hx _
    refine .of_one fun _ _ => .labeled hW.1 hid (hx _ fun hloop other _ => ?_)
    simp [Front.isNamed, hloop]
  | .expr place value, hW => by
    rw [resolveStmt]
    refine (makes_resolveExpr n vars value hW).bind fun v => makes_return rfl (by simp [stmtMoves]) fun _ hv => ?_
    exact .of_one fun _ _ => .plain rfl (by simpa using hv)

theorem makes_resolveFinalizer (n vars) : ∀ b, (∀ m ∈ finalMarks b, W m) →
    Keeps n vars (resolveFinalizer b) fun s F => ∀ x ∈ s, StmtLexical W vars F {} x
  | none, _ => by
    rw [resolveFinalizer]
    exact makes_pure (by simp) (by simp)
  | some b, hW => by
    rw [resolveFinalizer]
    refine (makes_resolveBlock n vars b hW).bind fun x _ => makes_pure (by simp) fun _ hx => ?_
    simpa using hx {}

theorem makes_resolveDeclarators (n vars) (kind : Surface.VariableKind) :
    ∀ ds, (∀ m ∈ declaratorsMarks ds, W m) →
    Makes n vars (resolveDeclarators kind ds) (afterStmts vars) fun l _ =>
      ∃ ds, l = ds.map .declare ∧ DeclarationsLexical W vars ds (afterDecls vars ds)
  | [], _ => by
    rw [resolveDeclarators]
    exact makes_return rfl (by simp) fun _ => ⟨[], rfl, .nil⟩
  | .mk place name value :: rest, hW => by
    simp only [declaratorsMarks, List.forall_mem_append] at hW
    rw [resolveDeclarators]
    refine .fresh fun id _ hnew => ?_
    refine (makes_resolveOption _ vars value hW.1).bind fun init => ?_
    refine .unless (fun _ => reports_reject _ _) fun _ => ?_
    refine (makes_declare _ (by exact Nat.lt_succ_self id)).bind fun _ => ?_
    refine (makes_noteConstant _).bind fun _ => ?_
    refine (makes_resolveDeclarators _ _ kind rest hW.2).bind fun l => ?_
    refine makes_return rfl (by simp [stmtMoves, List.count_cons, Nat.add_assoc]) ?_
    rintro _ ⟨ds, rfl, hds⟩ _ _ hinit
    exact ⟨_ :: ds, rfl, .cons hnew hinit hds⟩

theorem makes_resolveLoopVariables (n vars) (kind : Surface.VariableKind) :
    ∀ ds, (∀ m ∈ declaratorsMarks ds, W m) →
    Makes n vars (resolveLoopVariables kind ds) (afterDecls vars) fun ds _ =>
      DeclarationsLexical W vars ds (afterDecls vars ds)
  | [], _ => by
    rw [resolveLoopVariables]
    exact makes_return rfl (by simp) fun _ => .nil
  | .mk place name value :: rest, hW => by
    simp only [declaratorsMarks, List.forall_mem_append] at hW
    rw [resolveLoopVariables]
    refine .fresh fun id _ hnew => ?_
    refine (makes_resolveOption _ vars value hW.1).bind fun init => ?_
    refine (makes_declare _ (by exact Nat.lt_succ_self id)).bind fun _ => ?_
    refine (makes_resolveLoopVariables _ _ kind rest hW.2).bind fun ds => ?_
    exact makes_return rfl (by simp [List.count_cons, Nat.add_assoc])
      fun _ hds _ hinit => .cons hnew hinit hds

theorem makes_resolveCaseHeads (n vars) (labels : List String) :
    ∀ cases, (∀ m ∈ casesMarks cases, W m) →
    Keeps n vars (resolveCaseHeads labels cases) fun heads _ =>
      heads.length = cases.length ∧ ∀ h ∈ heads, ∀ e ∈ h.tests, ExprLexical W vars e
  | [], _ => by
    rw [resolveCaseHeads]
    exact makes_pure (by simp) (by simp)
  | .mk place label tests body :: rest, hW => by
    simp only [casesMarks, List.forall_mem_append] at hW
    rw [resolveCaseHeads]
    refine .node fun id => .unless (fun _ => reports_reject _ _) fun _ => ?_
    refine (makes_resolveTests _ vars tests hW.1.1).bind fun x => ?_
    refine (makes_resolveCaseHeads _ vars (label :: labels) rest hW.2).bind fun heads => ?_
    exact makes_pure (by simp) fun _ hheads hx =>
      ⟨congrArg (· + 1) hheads.1, List.forall_mem_cons.mpr ⟨hx, hheads.2⟩⟩

theorem makes_resolveTests (n vars) : ∀ tests, (∀ m ∈ testsMarks tests, W m) →
    Keeps n vars (resolveTests tests) fun x _ => ∀ e ∈ x.1, ExprLexical W vars e
  | [], _ => by
    rw [resolveTests]
    exact makes_pure (by simp) (by simp)
  | .default :: rest, hW => by
    rw [resolveTests]
    exact (makes_resolveTests n vars rest hW).bind fun x => makes_pure (by simp) fun _ hx => hx
  | .value test :: rest, hW => by
    simp only [testsMarks, List.forall_mem_append] at hW
    rw [resolveTests]
    refine (makes_resolveExpr n vars test hW.1).bind fun t => ?_
    refine (makes_resolveTests n vars rest hW.2).bind fun x => makes_pure (by simp) fun _ hx ht => ?_
    exact List.forall_mem_cons.mpr ⟨ht, hx⟩

theorem makes_resolveCaseBodies (n vars) (heads : List CaseHead) :
    ∀ cases, (∀ m ∈ casesMarks cases, W m) →
    Keeps n vars (resolveCaseBodies heads cases) (fun l F =>
      heads.length = cases.length → l.map caseRef = heads.map (fun h => ⟨h.id, h.label⟩) ∧
        ∀ c ∈ l, (∃ h ∈ heads, c.tests = h.tests) ∧ StmtLexical W vars F {} c.body) (ids heads)
  | [], _ => by
    rw [resolveCaseBodies]
    exact makes_pure (by simp) (by simp)
  | .mk place label tests body :: rest, hW => by
    simp only [casesMarks, List.forall_mem_append] at hW
    rw [resolveCaseBodies]
    refine .node fun id => ?_
    refine (makes_resolveStmts _ vars body hW.1.2).leaves.inScope.bind fun b => ?_
    cases heads with
    | nil =>
      refine (makes_resolveCaseBodies _ vars [] rest hW.2).bind fun l => ?_
      exact makes_pure (by simp) fun _ _ _ hlength => absurd hlength (by simp)
    | cons h heads =>
      refine Gives.weaken (k := ids h ++ ids b ++ ids heads)
        ((makes_resolveCaseBodies _ vars heads rest hW.2).carry fun l => ?_) fun i => by simp; omega
      refine makes_pure (by simp [stmtMoves]) fun _ hl hb hlength => ?_
      obtain ⟨hrefs, hparts⟩ := hl (Nat.succ.inj hlength)
      refine ⟨congrArg (_ :: ·) hrefs, List.forall_mem_cons.mpr ⟨⟨⟨h, by simp, rfl⟩, .block hb⟩, ?_⟩⟩
      intro c hc
      obtain ⟨⟨g, hg, heq⟩, hbody⟩ := hparts c hc
      exact ⟨⟨g, List.mem_cons_of_mem _ hg, heq⟩, hbody⟩

theorem makes_resolveCatches (n vars) : ∀ catches, (∀ m ∈ catchesMarks catches, W m) →
    Keeps n vars (resolveCatches catches) fun l F => ∀ c ∈ l, CatchLexical W vars F c
  | [], _ => by
    rw [resolveCatches]
    exact makes_pure (by simp) (by simp)
  | .mk place guard binding body :: rest, hW => by
    simp only [catchesMarks, List.forall_mem_append] at hW
    rw [resolveCatches]
    have hclause : Keeps n vars (inScope do
        let id ← freshId
        let exception ← catchVariable binding (·.exception)
        let stackTrace ← catchVariable binding (·.stackTrace)
        return ⟨id, place, guard, exception, stackTrace, ← resolveBlock body⟩) fun c F => CatchLexical W vars F c := by
      refine Leaves.inScope (.node fun id => ?_)
      refine (makes_catchVariable (W := W) binding (·.exception)).bind fun exception => ?_
      refine (makes_catchVariable (W := W) binding (·.stackTrace)).bind fun stackTrace => ?_
      refine (makes_resolveBlock _ _ body hW.1).bind fun b _ => ?_
      refine leaves_pure rfl (fun i => ?_) fun _ hb ht he => ?_
      · have := count_declare exception i
        have := count_declare stackTrace i
        simp only [ids_clause, catchMoves]
        simp
        omega
      exact .mk (he.1.append ht.1) (List.forall_mem_append.mpr ⟨he.2, ht.2⟩) (hb {})
    refine hclause.bind fun c => ?_
    refine (makes_resolveCatches n vars rest hW.2).bind fun l => makes_pure (by simp) fun _ hl hc => ?_
    exact List.forall_mem_cons.mpr ⟨hc, hl⟩

end

end Flowgraph.Resolve
