import Flowgraph.Proofs.Resolve.Library

/-! # Names stay in sight

The scopes of the analysis are not those of name resolution: only blocks, loop headers, handlers and
functions have one, and a declaration in any other statement is left in the scope around it. What is
in sight for name resolution is in sight for the analysis nevertheless.
-/

namespace Flowgraph.Scoping

open Flowgraph.Resolve

/-- What a move makes of the numbers in sight, one list for each open scope. A mention of a number out
of sight has no result. -/
def Move.see (S : List (List Nat)) : Move → Option (List (List Nat))
  | begin .. | nest .. | enter .. => some ([] :: S)
  | finish | exit => some S.tail
  | declare d | parameter d => match S with
    | [] => none
    | l :: S => some ((d.id :: l) :: S)
  | mention _ var => if var.id ∈ S.flatten then some S else none
  | _ => some S

def see (S : List (List Nat)) (w : List Move) : Option (List (List Nat)) := w.foldlM Move.see S

theorem see_append (S : List (List Nat)) (v w : List Move) :
    see S (v ++ w) = (see S v).bind (see · w) := List.foldlM_append

def InSight (vars : List Binding) (S : List (List Nat)) : Prop := ∀ b ∈ vars, b.ref.id ∈ S.flatten

/-- The word can be read where the variables are in sight. It leaves `vars'` in sight and adds to the
innermost scope only. -/
def Clear (vars : List Binding) (w : List Move) (vars' : List Binding) : Prop :=
  ∀ l S, InSight vars (l :: S) → ∃ l', see (l :: S) w = some (l' :: S) ∧ l ⊆ l' ∧
    InSight vars' (l' :: S)

section Words

variable {vars vars' vars'' : List Binding} {v w : List Move} {d : Tree.Declaration}

theorem InSight.grow {l l' : List Nat} {S : List (List Nat)} (h : InSight vars (l :: S))
    (hl : l ⊆ l') : InSight vars (l' :: S) := by
  intro b hb
  have := h b hb
  rw [List.flatten_cons, List.mem_append] at this ⊢
  exact this.imp (fun hmem => hl hmem) id

theorem clear_nil : Clear vars [] vars := fun l _ h => ⟨l, rfl, List.Subset.refl l, h⟩

theorem Clear.append (hv : Clear vars v vars') (hw : Clear vars' w vars'') :
    Clear vars (v ++ w) vars'' := by
  intro l S h
  obtain ⟨l', hl', hsub, h'⟩ := hv l S h
  obtain ⟨l'', hl'', hsub', h''⟩ := hw l' S h'
  exact ⟨l'', by rw [see_append, hl', Option.bind_some, hl''], List.Subset.trans hsub hsub', h''⟩

theorem Clear.cons {mv : Move} (hv : Clear vars [mv] vars') (hw : Clear vars' w vars'') :
    Clear vars (mv :: w) vars'' := hv.append hw

theorem Clear.weaken (h : Clear vars w vars') (hsub : vars'' ⊆ vars' ++ vars) :
    Clear vars w vars'' := by
  intro l S hl
  obtain ⟨l', hl', hll', h'⟩ := h l S hl
  refine ⟨l', hl', hll', fun b hb => ?_⟩
  rcases List.mem_append.mp (hsub hb) with hb | hb
  · exact h' b hb
  · exact hl.grow hll' b hb

theorem Clear.restore (h : Clear vars w vars') : Clear vars w vars :=
  h.weaken (List.subset_append_right _ _)

theorem Clear.under (h : Clear vars w vars') (hsub : vars ⊆ vars'') : Clear vars'' w vars'' := by
  intro l S hl
  obtain ⟨l', hl', hll', _⟩ := h l S fun b hb => hl b (hsub hb)
  exact ⟨l', hl', hll', hl.grow hll'⟩

theorem clear_idle {mv : Move} (h : ∀ S, mv.see S = some S) : Clear vars [mv] vars :=
  fun l S hl => ⟨l, by simp [see, h], List.Subset.refl l, hl⟩

theorem clear_mention {b : Binding} (hb : b ∈ vars) (place : Position) :
    Clear vars [.mention place b.ref] vars := by
  refine fun l S hl => ⟨l, ?_, List.Subset.refl l, hl⟩
  rw [see, List.foldlM_cons, Move.see, if_pos (hl b hb)]
  rfl

theorem clear_of_declare {mv : Move} (h : mv = .declare d ∨ mv = .parameter d) :
    Clear vars [mv] (binding d :: vars) := by
  intro l S hl
  refine ⟨d.id :: l, by obtain rfl | rfl := h <;> rfl, List.subset_cons_self _ _, ?_⟩
  refine List.forall_mem_cons.mpr ⟨?_, hl.grow (List.subset_cons_self _ _)⟩
  exact List.mem_flatten.mpr ⟨_, List.mem_cons_self, List.mem_cons_self⟩

theorem clear_declare : Clear vars [.declare d] (binding d :: vars) := clear_of_declare (.inl rfl)

theorem clear_parameter : Clear vars [.parameter d] (binding d :: vars) := clear_of_declare (.inr rfl)

/-- What is declared in a scope is out of sight after it. -/
theorem Clear.inside {first last : Move} (hfirst : ∀ S, first.see S = some ([] :: S))
    (hlast : ∀ S, last.see S = some S.tail) (h : Clear vars w vars') :
    Clear vars (first :: (w ++ [last])) vars := by
  intro l S hl
  obtain ⟨l', hl', _, _⟩ := h [] (l :: S) (by simpa [InSight] using hl)
  refine ⟨l, ?_, List.Subset.refl l, hl⟩
  rw [see, List.foldlM_cons, hfirst]
  show see ([] :: l :: S) (w ++ [last]) = _
  rw [see_append, hl']
  simp [see, hlast]

theorem Clear.scope (h : Clear vars w vars') (kind : ScopeKind) (node : Nat) (place : Position) :
    Clear vars (.enter kind node place :: (w ++ [.exit])) vars :=
  h.inside (fun _ => rfl) fun _ => rfl

theorem Clear.nest (h : Clear vars w vars') (f : Tree.Function) (name : String) :
    Clear vars (.nest f name :: (w ++ [.finish])) vars :=
  h.inside (fun _ => rfl) fun _ => rfl

theorem Clear.flatMap {α : Type} {f : α → List Move} {l : List α} (h : ∀ x ∈ l, Clear vars (f x) vars) :
    Clear vars (l.flatMap f) vars := by
  induction l with
  | nil => exact clear_nil
  | cons x l ih =>
    rw [List.flatMap_cons]
    exact (h x (by simp)).append (ih fun y hy => h y (List.mem_cons_of_mem x hy))

end Words

/-! ## Trees -/

@[simp] theorem namedMoves_cons (a : Tree.NamedArgument) (rest : List Tree.NamedArgument) :
    namedMoves (a :: rest) = exprMoves a.value ++ namedMoves rest := by
  cases a
  rfl

@[simp] theorem parameterMoves_cons (d : Tree.Declaration) (rest : List Tree.Declaration) :
    parameterMoves (d :: rest) =
      optionMoves d.initializer ++ (.parameter d :: parameterMoves rest) := by
  cases d
  rfl

@[simp] theorem declarationMoves_cons (d : Tree.Declaration) (rest : List Tree.Declaration) :
    declarationMoves (d :: rest) =
      optionMoves d.initializer ++ (.declare d :: declarationMoves rest) := by
  cases d
  rfl

@[simp] theorem stmtMoves_declare (d : Tree.Declaration) :
    stmtMoves (.declare d) = optionMoves d.initializer ++ [.declare d] := by
  cases d
  rfl

@[simp] theorem argumentMoves_eq (args : Tree.Arguments) :
    argumentMoves args = exprsMoves args.positional ++ namedMoves args.named := by
  cases args
  rfl

@[simp] theorem functionMoves_eq (name : String) (f : Tree.Function) :
    functionMoves name f = .nest f name :: (signatureMoves f ++ bodyMoves f.body ++ [.finish]) := by
  cases f
  simp [functionMoves, signatureMoves, Tree.Function.optional]

@[simp] theorem parameterMoves_append (ds es : List Tree.Declaration) :
    parameterMoves (ds ++ es) = parameterMoves ds ++ parameterMoves es := by
  induction ds with
  | nil => rfl
  | cons d ds ih => simp [ih]

theorem exprsMoves_eq (es : List Tree.Expr) : exprsMoves es = es.flatMap exprMoves := by
  induction es with
  | nil => rfl
  | cons e es ih => rw [exprsMoves, ih, List.flatMap_cons]

theorem namedMoves_eq (args : List Tree.NamedArgument) :
    namedMoves args = (args.map (·.value)).flatMap exprMoves := by
  induction args with
  | nil => rfl
  | cons a args ih => rw [namedMoves_cons, ih, List.map_cons, List.flatMap_cons]

theorem entryMoves_eq (es : List Tree.MapEntry) :
    entryMoves es = (es.flatMap fun e => [e.key, e.value]).flatMap exprMoves := by
  induction es with
  | nil => rfl
  | cons e es ih =>
    cases e
    simp [entryMoves, ih]

theorem exprMoves_children {e : Tree.Expr} {parts : List Tree.Expr} (h : children e = some parts) :
    exprMoves e = parts.flatMap exprMoves ∨ ∃ place, e = .this place := by
  cases e with
  | this place => exact .inr ⟨place, rfl⟩
  | get | set | function | letIn => cases h
  | _ =>
    cases h
    left
    simp [exprMoves, exprsMoves_eq, namedMoves_eq, entryMoves_eq]

theorem exprMoves_letIn (place : Position) (d : Tree.Declaration) (body : Tree.Expr) :
    exprMoves (.letIn place d body) = optionMoves d.initializer ++ (.declare d :: exprMoves body) := by
  cases d
  rfl

theorem caseMoves_eq (cases : List Tree.SwitchCase) :
    caseMoves cases = cases.flatMap fun c => exprsMoves c.tests ++ stmtMoves c.body := by
  induction cases with
  | nil => rfl
  | cons c cases ih =>
    cases c
    simp [caseMoves, ih]

/-- The word of a handler. -/
def handlerMoves (c : Tree.CatchClause) : List Move :=
  .enter .handler c.id c.place :: ((caughtVars c).map .declare ++ stmtMoves c.body ++ [.exit])

theorem catchMoves_eq (catches : List Tree.CatchClause) :
    catchMoves catches = catches.flatMap handlerMoves := by
  induction catches with
  | nil => rfl
  | cons c catches ih =>
    cases c
    simp [catchMoves, handlerMoves, caughtVars, ih]

theorem declarationMoves_plain {ds : List Tree.Declaration} (h : ∀ d ∈ ds, d.initializer = none) :
    declarationMoves ds = ds.map .declare := by
  induction ds with
  | nil => rfl
  | cons d ds ih =>
    rw [declarationMoves_cons, h d (by simp), ih fun d hd => h d (List.mem_cons_of_mem _ hd)]
    rfl

theorem stmtMoves_operands {s : Tree.Stmt} {es : List Tree.Expr} (h : operands s = some es) :
    declared s = [] ∧ (stmtMoves s = es.flatMap exprMoves ∨
      stmtMoves s = es.flatMap exprMoves ++ [.help .giveBack]) := by
  have hoption (e : Option Tree.Expr) : optionMoves e = e.toList.flatMap exprMoves := by
    cases e <;> simp [optionMoves]
  cases s <;> cases h <;> simp [declared, stmtMoves, hoption]

section Trees

variable {W : Mark → Prop} {vars vars' : List Binding}

theorem Clear.counted {w : List Move} (h : Clear vars w vars') :
    Clear vars (deeper :: (w ++ [shallower])) vars' :=
  (clear_idle fun _ => rfl).cons (h.append (clear_idle fun _ => rfl))

theorem clear_request (optional : List Tree.Declaration) : Clear vars [.request optional] vars :=
  clear_idle fun _ => rfl

theorem clear_option {e : Option Tree.Expr} (h : ∀ x ∈ e, Clear vars (exprMoves x) vars) :
    Clear vars (optionMoves e) vars := by
  cases e with
  | none => exact clear_nil
  | some e => exact h e rfl

theorem clear_body {b : Option Tree.Stmt} (h : ∀ s ∈ b, Clear vars (stmtMoves s) vars) :
    Clear vars (bodyMoves b) vars := by
  cases b with
  | none => exact clear_nil
  | some s => exact h s rfl

mutual

theorem clear_expr {vars : List Binding} {e : Tree.Expr} :
    ExprLexical W vars e → Clear vars (exprMoves e) vars
  | .get _ hb hvar => by
    rw [exprMoves, ← hvar]
    exact clear_mention (List.mem_of_find?_eq_some hb) _
  | .set _ hb hvalue => by
    rw [exprMoves]
    exact (clear_expr hvalue).append (clear_mention (List.mem_of_find?_eq_some hb) _)
  | .function hf => by
    rw [exprMoves]
    exact clear_function "" hf
  | .letIn _ hinit hbody => by
    rw [exprMoves_letIn]
    have hbody := clear_declare.cons (clear_expr hbody)
    exact (clear_option fun x hx => clear_expr (hinit x hx)).append hbody.restore
  | .other he hparts => by
    obtain hmoves | ⟨place, rfl⟩ := exprMoves_children he
    · rw [hmoves]
      exact .flatMap fun x hx => clear_expr (hparts x hx)
    · rw [exprMoves]
      exact clear_idle fun _ => rfl

theorem clear_declarations {vars vars' : List Binding} {ds : List Tree.Declaration} :
    DeclarationsLexical W vars ds vars' →
      Clear vars (declarationMoves ds) vars' ∧ Clear vars (parameterMoves ds) vars'
  | .nil => ⟨clear_nil, clear_nil⟩
  | .cons _ hinit hrest => by
    have hinit := clear_option fun x hx => clear_expr (hinit x hx)
    rw [declarationMoves_cons, parameterMoves_cons]
    exact ⟨hinit.append (clear_declare.cons (clear_declarations hrest).1),
      hinit.append (clear_parameter.cons (clear_declarations hrest).2)⟩

theorem clear_function {vars : List Binding} {f : Tree.Function} (name : String) :
    FunctionLexical W vars f → Clear vars (functionMoves name f) vars
  | .mk hparams hbody => by
    rw [functionMoves_eq, signatureMoves, ← List.append_assoc, ← parameterMoves_append]
    have hsignature := (clear_declarations hparams).2.append (clear_request f.optional)
    have hbody := clear_body fun s hs => (clear_stmt (hbody s hs)).restore
    exact (hsignature.append hbody).nest f name

theorem clear_stmt {vars : List Binding} {frames : List Frame} {front : Front} {s : Tree.Stmt} :
    StmtLexical W vars frames front s → Clear vars (stmtMoves s) (declared s ++ vars)
  | .plain hs hes => by
    have hes := Clear.flatMap fun x hx => clear_expr (hes x hx)
    obtain ⟨hdeclared, hmoves | hmoves⟩ := stmtMoves_operands hs
    · rw [hdeclared, hmoves]
      exact hes
    · rw [hdeclared, hmoves]
      exact hes.append (clear_idle fun _ => rfl)
  | .block hstatements => by
    rw [stmtMoves]
    exact (clear_stmts hstatements).scope _ _ _
  | .declare _ hinit => by
    rw [stmtMoves_declare]
    exact (clear_option fun x hx => clear_expr (hinit x hx)).append clear_declare
  | .function _ _ hf => by
    rw [stmtMoves]
    exact clear_declare.cons (clear_function _ hf)
  | .branch hc hyes hno => by
    rw [stmtMoves]
    exact (clear_expr hc).append ((clear_stmt hyes).restore.append
      (clear_body fun s hs => (clear_stmt (hno s hs)).restore))
  | .whileDo hc hbody => by
    rw [stmtMoves]
    exact ((clear_expr hc).append (clear_loop hbody)).counted
  | .doWhile hc hbody => by
    rw [stmtMoves]
    exact ((clear_loop hbody).append (clear_expr hc)).counted
  | .forLoop hds hc hus hbody => by
    rw [stmtMoves, exprsMoves_eq]
    have hc := clear_option fun x hx => clear_expr (hc x hx)
    have hus := Clear.flatMap fun x hx => clear_expr (hus x hx)
    have hturn := (hc.append (hus.append (clear_loop hbody))).counted
    exact ((clear_declarations hds).1.append hturn).scope _ _ _
  | .forIn _ _ hi hbody => by
    rw [stmtMoves]
    refine (clear_expr hi).append ((clear_idle fun _ => rfl).cons ((clear_idle fun _ => rfl).cons ?_))
    refine (Clear.counted ?_).append (clear_idle fun _ => rfl)
    exact (clear_declare.cons (clear_loop hbody)).scope _ _ _
  | .labeled _ _ hbody => by
    rw [stmtMoves]
    exact (clear_stmt hbody).restore
  | .made _ _ hbody => by
    rw [stmtMoves]
    exact (clear_stmt hbody).restore
  | .breakOut .. => clear_nil
  | .continueCase .. => clear_nil
  | .switch hs htests hbodies => by
    rw [stmtMoves, caseMoves_eq]
    refine (clear_expr hs).append ((clear_idle fun _ => rfl).cons ((clear_idle fun _ => rfl).cons ?_))
    refine Clear.append (.flatMap fun c hc => ?_) (clear_idle fun _ => rfl)
    rw [exprsMoves_eq]
    exact (Clear.flatMap fun x hx => clear_expr (htests c hc x hx)).append
      (clear_stmt (hbodies c hc)).restore
  | .tryCatch hbody hcatches => by
    rw [stmtMoves, catchMoves_eq]
    refine (clear_idle fun _ => rfl).cons ((clear_idle fun _ => rfl).cons ?_)
    refine (clear_stmt hbody).restore.append ((clear_idle fun _ => rfl).cons ?_)
    refine (clear_idle fun _ => rfl).cons (Clear.append ?_ (clear_idle fun _ => rfl))
    exact .flatMap fun c hc => clear_catch (hcatches c hc)
  | .tryFinally hbody hfinalizer => by
    rw [stmtMoves]
    refine (clear_idle fun _ => rfl).cons ((clear_idle fun _ => rfl).cons ?_)
    refine (clear_stmt hbody).restore.append ((clear_idle fun _ => rfl).cons ?_)
    refine (clear_idle fun _ => rfl).cons (Clear.append ?_ (clear_idle fun _ => rfl))
    exact (clear_stmt hfinalizer).restore

theorem clear_catch {vars : List Binding} {frames : List Frame} {c : Tree.CatchClause} :
    CatchLexical W vars frames c → Clear vars (handlerMoves c) vars
  | .mk hds hnone hbody => by
    have hds := (clear_declarations hds).1
    rw [declarationMoves_plain hnone] at hds
    exact (hds.append (clear_stmt hbody)).scope _ _ _

theorem clear_stmts {vars : List Binding} {frames : List Frame} {l : List Tree.Stmt} :
    StmtsLexical W vars frames l → Clear vars (stmtsMoves l) vars
  | .nil => clear_nil
  | .cons hs hrest => by
    rw [stmtsMoves]
    exact ((clear_stmt hs).append (clear_stmts hrest)).restore

theorem clear_loop {vars : List Binding} {frames : List Frame} {front : Front} {s : Tree.Stmt} :
    LoopLexical W vars frames front s → Clear vars (stmtMoves s) vars
  | .plain hbody => (clear_stmt hbody).restore
  | .labeled _ _ hbody => by
    rw [stmtMoves]
    exact (clear_stmt hbody).restore

end

/-! ## Members -/

theorem clear_arguments {args : Tree.Arguments}
    (h : ∀ e ∈ args.positional ++ args.named.map (·.value), ExprLexical W vars e) :
    Clear vars (argumentMoves args) vars := by
  rw [argumentMoves_eq, exprsMoves_eq, namedMoves_eq, ← List.flatMap_append]
  exact .flatMap fun e he => clear_expr (h e he)

theorem clear_initializer {i : Tree.Initializer} (h : ∀ e ∈ initializerParts i, ExprLexical W vars e) :
    Clear vars (initializerMoves i) vars := by
  cases i with
  | superCall place target args | redirect place target args => exact clear_arguments h
  | field place name value => exact clear_expr (h value (by simp [initializerParts]))

theorem clear_signature {f : Tree.Function} (h : DeclarationsLexical W vars f.parameters vars') :
    Clear vars (signatureMoves f) vars' := by
  rw [signatureMoves, ← List.append_assoc, ← parameterMoves_append]
  exact (clear_declarations h).2.append (clear_request f.optional)

theorem clear_constructor {owner : Tree.ClassDecl} {c : Tree.Constructor}
    (hfields : ∀ f ∈ owner.fields, ∀ e ∈ f.initializer, ExprLexical W [] e)
    (h : ConstructorLexical W c) : Clear [] (insideMoves (.constructor owner c)) [] := by
  obtain ⟨vars, hparams, hinits, hbody⟩ := h
  have hfields : Clear vars (if !c.isRedirecting then owner.fields.flatMap fun f =>
      if f.isStatic then [] else optionMoves f.initializer else []) vars := by
    split
    · refine .flatMap fun f hf => ?_
      split
      · exact clear_nil
      · exact (clear_option fun e he => clear_expr (hfields f hf e he)).under (List.nil_subset _)
    · exact clear_nil
  have hinits := Clear.flatMap fun i hi => clear_initializer (hinits i hi)
  have hbody := clear_body fun s hs => (clear_stmt (hbody s hs)).restore
  exact ((clear_signature hparams).append ((hfields.append hinits).append hbody)).restore

theorem clear_inside {l : Tree.Library} (h : ∀ m ∈ l.members, MemberLexical W m) {m : Tree.Member}
    (hm : m ∈ l.members) : Clear [] (insideMoves m) [] := by
  cases m with
  | field owner f => exact clear_option fun e he => clear_expr (h _ hm e he)
  | procedure owner p =>
    obtain ⟨f, hf, hlexical⟩ := h _ hm
    cases hlexical with
    | mk hparams hbody =>
      rw [insideMoves, hf]
      have hbody := clear_body fun s hs => (clear_stmt (hbody s hs)).restore
      exact ((clear_signature hparams).append hbody).restore
  | constructor owner c =>
    refine clear_constructor (fun f hf => ?_) (h _ hm)
    refine h (.field (some owner) f) ?_
    simp only [Tree.Library.members, List.mem_append, List.mem_map, List.mem_flatMap,
      Tree.ClassDecl.members] at hm ⊢
    rcases hm with (⟨_, _, ⟨⟩⟩ | ⟨_, _, ⟨⟩⟩) | ⟨c', hc', (⟨_, _, ⟨⟩⟩ | ⟨_, _, ⟨⟩⟩) | ⟨_, _, ⟨⟩⟩⟩
    exact .inr ⟨owner, hc', .inl (.inl ⟨f, hf, rfl⟩)⟩

end Trees

end Flowgraph.Scoping
