import Flowgraph.Proofs.Resolve.Body

/-! # Libraries are resolved lexically

Each member starts with no variable and no jump target in sight. Main statement: if resolution has
no complaint, then the names and jumps in all members are bound as they are written. No two variables
of a library have the same number.
-/

namespace Flowgraph.Resolve

open Flowgraph.Scoping

variable {n : Nat} {vars : List Binding} {W : Mark → Prop}

/-! ## What is written -/

def initializerMarks : Surface.Initializer → List Mark
  | .superCall _ _ args | .redirect _ _ args => argumentsMarks args
  | .field _ _ value => exprMarks value

def memberMarks : Surface.MemberShape → List Mark
  | .field _ _ _ value => optionMarks value
  | .procedure _ _ _ params body => params.toList.flatMap parametersMarks ++ bodyMarks body
  | .constructor _ _ _ params inits body =>
    parametersMarks params ++ inits.flatMap initializerMarks ++ bodyMarks body

def declarationMarks : Surface.Declaration → List Mark
  | .classDecl c => c.members.flatMap (memberMarks ·.shape)
  | .member m => memberMarks m.shape

/-- The names, assignments, jumps and labels that are written in a program. -/
def programMarks (p : Surface.Program) : List Mark := p.declarations.flatMap declarationMarks

/-! ## Members -/

/-- The values in an entry of an initializer list. -/
def initializerParts : Tree.Initializer → List Tree.Expr
  | .superCall _ _ args | .redirect _ _ args => args.positional ++ args.named.map (·.value)
  | .field _ _ value => [value]

/-- The initializers and the body of a constructor see its parameters. -/
def ConstructorLexical (W : Mark → Prop) (c : Tree.Constructor) : Prop :=
  ∃ vars, DeclarationsLexical W [] c.function.parameters vars ∧
    (∀ i ∈ c.initializers, ∀ e ∈ initializerParts i, ExprLexical W vars e) ∧
    ∀ s ∈ c.function.body, StmtLexical W vars [] {} s

/-- The names and jumps in a member are bound to what the member declares. -/
def MemberLexical (W : Mark → Prop) : Tree.Member → Prop
  | .field _ f => ∀ e ∈ f.initializer, ExprLexical W [] e
  | .procedure _ p => ∃ f, p.function = some f ∧ FunctionLexical W [] f
  | .constructor _ c => ConstructorLexical W c

/-- The members that are resolved so far. -/
structure MembersLexical (W : Mark → Prop) (ms : Members) : Prop where
  fields : ∀ f ∈ ms.fields, ∀ e ∈ f.initializer, ExprLexical W [] e
  constructors : ∀ c ∈ ms.constructors, ConstructorLexical W c
  procedures : ∀ p ∈ ms.procedures, ∃ f, p.function = some f ∧ FunctionLexical W [] f

section Lists

variable {α β : Type} [Numbered β]

theorem Makes.foldlM {f : β → α → ResolveM β} {P : β → Prop} {l : List α}
    (h : ∀ b, ∀ x ∈ l, Keeps n vars (f b x) (fun c _ => P b → P c) (ids b)) (b : β) :
    Keeps n vars (l.foldlM f b) (fun c _ => P b → P c) (ids b) := by
  induction l generalizing b with
  | nil => exact makes_pure (fun _ => Nat.le_refl _) fun _ hb => hb
  | cons x l ih =>
    rw [List.foldlM_cons]
    refine (h b x (by simp)).then fun c => ?_
    exact (ih (fun b y hy => h b y (List.mem_cons_of_mem x hy)) c).mono fun d _ hd hc hb => hd (hc hb)

theorem Makes.forM {f : α → ResolveM PUnit} {l : List α}
    (h : ∀ x ∈ l, Keeps n vars (f x) fun _ _ => True) :
    Keeps n vars (l.forM f) fun _ _ => True := by
  induction l with
  | nil => exact makes_pure (by simp) fun _ => trivial
  | cons x l ih =>
    refine (h x (by simp)).bind fun _ => ?_
    exact (ih fun y hy => h y (List.mem_cons_of_mem x hy)).into (by simp) fun _ _ _ _ => trivial

theorem Makes.mapM {f : α → ResolveM β} {P : β → Prop} {l : List α}
    (h : ∀ x ∈ l, Keeps n vars (f x) fun y _ => P y) :
    Keeps n vars (l.mapM f) fun ys _ => ∀ y ∈ ys, P y := by
  induction l with
  | nil => exact makes_pure (by simp) (by simp)
  | cons x l ih =>
    rw [List.mapM_cons]
    refine (h x (by simp)).bind fun y => ?_
    refine (ih fun z hz => h z (List.mem_cons_of_mem x hz)).bind fun ys => ?_
    refine makes_pure (by simp) fun _ hys hy => ?_
    exact List.forall_mem_cons.mpr ⟨hy, hys⟩

end Lists

theorem makes_resolveField {place : Position} {kind : Surface.VariableKind} {name : String}
    {isStatic : Bool} {value : Option Surface.Expr} (hW : ∀ m ∈ optionMarks value, W m) :
    Keeps n vars (resolveField place kind name isStatic value) fun f _ =>
      ∀ e ∈ f.initializer, ExprLexical W vars e := by
  refine (makes_resolveOption n vars value hW).leaves.inScope.bind fun init => ?_
  refine .unless (fun _ => reports_reject _ _) fun _ => .node fun id => ?_
  exact makes_pure (by simp) fun _ hinit => hinit

theorem makes_resolveSignature {place : Position} {params : Option Surface.Parameters}
    (hW : ∀ m ∈ params.toList.flatMap parametersMarks, W m) :
    Makes n vars (resolveSignature place params) (fun f => afterDecls vars f.parameters) fun f _ =>
      ParametersLexical W vars f := by
  cases params with
  | none =>
    refine .node fun id => makes_return rfl (by simp) fun _ => ?_
    exact .nil
  | some params => exact makes_resolveParameters n vars params (by simpa using hW)

theorem makes_resolveProcedure {hasOwner : Bool} {place : Position} {kind : Surface.ProcedureKind}
    {name : String} {isStatic isExternal : Bool} {params : Option Surface.Parameters}
    {body : Surface.Body} (hparams : ∀ m ∈ params.toList.flatMap parametersMarks, W m)
    (hbody : ∀ m ∈ bodyMarks body, W m) :
    Keeps n vars (resolveProcedure hasOwner place kind name isStatic isExternal params body) fun p _ => ∀ q ∈ p, ∃ f, q.function = some f ∧ FunctionLexical W vars f := by
  rw [resolveProcedure]
  dsimp only
  split
  · exact (reports_reject _ _).bind.gives
  split
  · exact (reports_reject _ _).bind.gives
  refine .unless (fun _ => reports_reject _ _) fun _ => ?_
  refine .unless (fun _ => reports_report _) fun _ => ?_
  refine (makes_function (makes_resolveSignature hparams)
    fun vars => makes_resolveBody n vars place isExternal body hbody).bind fun f => ?_
  exact makes_pure (by simp) fun _ hf q hq => ⟨f, (Option.some.inj hq) ▸ rfl, hf⟩

theorem makes_resolveInitializer {className super : String} {i : Surface.Initializer}
    (hW : ∀ m ∈ initializerMarks i, W m) :
    Keeps n vars (resolveInitializer className super i) fun i _ =>
      ∀ e ∈ initializerParts i, ExprLexical W vars e := by
  cases i with
  | superCall place name args | redirect place name args =>
    exact (makes_resolveArguments n vars args hW).bind fun a =>
      makes_pure (by simp [initializerMoves]) fun _ ha => ha
  | field place name value =>
    refine (makes_resolveExpr n vars value hW).bind fun v =>
      makes_pure (by simp [initializerMoves]) fun _ hv => ?_
    simpa [initializerParts] using hv

theorem makes_resolveConstructor {className super : String} {place : Position} {isConst : Bool}
    {name : String} {params : Surface.Parameters} {inits : List Surface.Initializer}
    {body : Surface.Body} (hparams : ∀ m ∈ parametersMarks params, W m)
    (hinits : ∀ i ∈ inits, ∀ m ∈ initializerMarks i, W m) (hbody : ∀ m ∈ bodyMarks body, W m) :
    Makes n [] (resolveConstructor className super place isConst name params inits body)
      (fun _ => []) fun c _ => ConstructorLexical W c := by
  have hmarks : bodyMarks (presentBody body) = bodyMarks body := by cases body <;> rfl
  rw [← hmarks] at hbody
  refine Leaves.enclosed (P := fun c F => F = [] → ConstructorLexical W c) ?_ |>.mono ?_
  · refine (makes_resolveParameters n [] params hparams).bind fun f => ?_
    refine (Makes.mapM fun i hi => makes_resolveInitializer (hinits i hi)).bind fun is => ?_
    refine (makes_resolveBody n _ place false _ hbody).bind fun b => leaves_pure rfl (fun i => ?_) ?_
    · simp only [Numbered.constructor_ids, Numbered.function_ids, List.count_append]
      omega
    rintro F hb his hf rfl
    exact ⟨_, hf, his, hb⟩
  · exact fun c _ h => h rfl

theorem makes_resolveMember {owner : Option Owner} (ms : Members) {m : Surface.Member}
    (hW : ∀ k ∈ memberMarks m.shape, W k) :
    Makes n [] (resolveMember owner ms m) (fun _ => [])
      (fun ms' _ => MembersLexical W ms → MembersLexical W ms') (ids ms) := by
  obtain ⟨place, isStatic, isExternal, shape⟩ := m
  cases shape with
  | field fieldPlace kind name value =>
    rw [resolveMember.eq_def]
    refine .unless (fun _ => reports_reject _ _) fun _ => ?_
    refine (makes_resolveField hW).bind fun f => makes_pure (fun i => ?_) fun _ hf hms =>
      { hms with fields := ?_ }
    · simp only [Numbered.members_ids, ids_append, ids_cons, ids_nil, List.count_append, List.count_nil]
      omega
    exact List.forall_mem_append.mpr ⟨hms.fields, by simpa using hf⟩
  | procedure procPlace kind name params body =>
    simp only [memberMarks, List.forall_mem_append] at hW
    refine (makes_resolveProcedure hW.1 hW.2).bind fun p => ?_
    split
    · refine makes_pure (by simp) fun _ hp hms => { hms with procedures := ?_ }
      exact List.forall_mem_append.mpr ⟨hms.procedures, by simpa using hp⟩
    · exact makes_pure (by simp) fun _ _ hms => hms
  | constructor ctorPlace isConst name params inits body =>
    simp only [memberMarks, List.forall_mem_append, List.forall_mem_flatMap] at hW
    cases owner with
    | none => exact (reports_reject _ _).bind.gives
    | some o =>
      rw [resolveMember.eq_def]
      refine .unless (fun _ => reports_reject _ _) fun _ => ?_
      refine (makes_resolveConstructor hW.1.1 hW.1.2 hW.2).bind fun c => ?_
      refine makes_pure (fun i => ?_) fun _ hc hms => { hms with constructors := ?_ }
      · simp only [Numbered.members_ids, ids_append, ids_cons, ids_nil, List.count_append, List.count_nil]
        omega
      exact List.forall_mem_append.mpr ⟨hms.constructors, by simpa using hc⟩

/-! ## Libraries -/

/-- The classes and members that are resolved so far. -/
structure ContentsLexical (W : Mark → Prop) (done : Contents) : Prop where
  members : MembersLexical W done.members
  classes : ∀ c ∈ done.classes, ∀ m ∈ c.members, MemberLexical W m

theorem MembersLexical.of_class {ms : Members} (h : MembersLexical W ms) {place : Position}
    {name super : String} : ∀ m ∈ Tree.ClassDecl.members
      ⟨place, name, super, ms.fields, ms.constructors, ms.procedures⟩, MemberLexical W m := by
  intro m hm
  simp only [Tree.ClassDecl.members, List.mem_append, List.mem_map] at hm
  rcases hm with (⟨f, hf, rfl⟩ | ⟨c, hc, rfl⟩) | ⟨p, hp, rfl⟩
  · exact h.fields f hf
  · exact h.constructors c hc
  · exact h.procedures p hp

theorem makes_announce (d : Surface.Declaration) :
    Keeps n vars (announce d) fun _ _ => True := by
  cases d with
  | classDecl c =>
    refine (makes_isClass c.name).bind fun known => ?_
    split
    · exact (reports_reject _ _).gives
    · refine Gives.into (P := fun _ _ => True) (k := []) ?_ (by simp) fun _ _ _ _ => trivial
      exact makes_modify (fun _ => rfl) (fun _ => rfl) fun _ => rfl
  | member m => exact makes_modify (fun _ => rfl) (fun _ => rfl) fun _ => rfl

theorem makes_isAnnounced (c : Surface.ClassDecl) :
    Keeps n vars (isAnnounced c) fun _ _ => True :=
  makes_read (by simp) fun _ _ _ => trivial

theorem makes_resolveDeclaration (done : Contents) {d : Surface.Declaration}
    (hW : ∀ m ∈ declarationMarks d, W m) :
    Makes n [] (resolveDeclaration done d) (fun _ => [])
      (fun done' _ => ContentsLexical W done → ContentsLexical W done') (ids done) := by
  cases d with
  | classDecl c =>
    simp only [declarationMarks, List.forall_mem_flatMap] at hW
    refine (makes_isAnnounced c).bind fun known => ?_
    split
    · exact makes_pure (by simp) fun _ _ h => h
    · refine (Makes.foldlM (P := MembersLexical W)
        (fun ms m hm => makes_resolveMember ms (hW m hm)) _).bind fun ms => ?_
      refine makes_pure (by simp) fun _ hms _ hdone => { hdone with classes := ?_ }
      refine List.forall_mem_append.mpr ⟨hdone.classes, List.forall_mem_singleton.mpr ?_⟩
      exact (hms ⟨by simp, by simp, by simp⟩).of_class
  | member m =>
    refine .weaken (k := ids done.classes ++ ids done.members)
      ((makes_resolveMember done.members hW).carry fun ms => ?_) fun i => ?_
    · refine makes_pure (fun i => ?_) fun _ hms hdone => { hdone with members := hms hdone.members }
      simp only [Numbered.contents_ids, List.count_append]
      omega
    · simp only [Numbered.contents_ids, List.count_append]
      omega

theorem makes_resolveProgram (p : Surface.Program) :
    Makes n [] (resolveProgram p) (fun _ => []) fun l _ =>
      ∀ m ∈ l.members, MemberLexical (· ∈ programMarks p) m := by
  have hmarks : ∀ d ∈ p.declarations, ∀ m ∈ declarationMarks d, m ∈ programMarks p :=
    fun d hd m hm => List.mem_flatMap.mpr ⟨d, hd, hm⟩
  refine (Makes.forM fun d _ => makes_announce d).bind fun _ => ?_
  refine (Makes.foldlM (P := ContentsLexical (· ∈ programMarks p))
    (fun done d hd => makes_resolveDeclaration done (hmarks d hd)) {}).bind fun done => ?_
  refine makes_get.bind fun _ => makes_get.bind fun _ => makes_pure (fun i => ?_)
    fun _ _ _ hdone _ m hm => ?_
  · simp only [Numbered.library_ids, Numbered.contents_ids, Numbered.members_ids, ids_nil, List.count_append,
      List.count_nil]
    omega
  obtain ⟨hmembers, hclasses⟩ := hdone ⟨⟨by simp, by simp, by simp⟩, by simp⟩
  simp only [Tree.Library.members, List.mem_append, List.mem_map, List.mem_flatMap] at hm
  rcases hm with (⟨f, hf, rfl⟩ | ⟨q, hq, rfl⟩) | ⟨c, hc, hm⟩
  · exact hmembers.fields f hf
  · exact hmembers.procedures q hq
  · exact hclasses c hc m hm

theorem Gives.start {α : Type} [Numbered α] {m : ResolveM α} {I : α → State → Prop}
    {P : α → List Frame → Prop} {first : Nat} (hm : Gives first [] m I P)
    (h : (m { nextId := first }).2.2 = []) :
    P (m { nextId := first }).1 [] ∧ (ids (m { nextId := first }).1).Nodup := by
  have hi : Inv { nextId := first } [] := ⟨fun _ => rfl, by simp, by simp, by simp⟩
  obtain ⟨hstep, -, hunder, hgiven⟩ := hm { nextId := first } (Nat.le_refl _) hi h
  obtain ⟨given, hperm, hsub⟩ := hgiven
  refine ⟨hunder [] [] ?_ .nil, hperm.nodup_iff.mp (hsub.nodup (by simpa using List.nodup_range'))⟩
  rw [List.forall₂_nil_left_iff.mp hstep.targets]
  exact .nil

/-- If resolution has no complaint about a program, then each name stands for the latest variable in
sight, no fixed variable is assigned, and each jump goes where the program says. -/
theorem resolve_lexical (p : Surface.Program) (first : Nat)
    (h : (resolveProgram p { nextId := first }).2.2 = []) :
    ∀ m ∈ (resolveProgram p { nextId := first }).1.members, MemberLexical (· ∈ programMarks p) m := by
  exact ((makes_resolveProgram p).start h).1

section Example

open Surface

/-- Place number `n` of a text in one line. -/
def column (n : Nat) : Position := ⟨"t.dil", n - 1, 1, n⟩

def nameAt (n : Nat) (name : String) : Expr := .chain (.ident (column n) name) []

/-- `library t; fun f(n) { final m = n; next: while (n) { switch (m) { again: case n: n = m;
continue again; default: continue next; } break; } }` -/
def restarting : Program where
  place := column 1
  name := "t"
  declarations := [.member ⟨column 12, false, false, .procedure (column 12) .method "f"
    (some (.mk (column 17) [.required (.mk (column 18) "n" none)]))
    (.block (.mk (column 21) [
      .declare (column 23) .final [.mk (column 29) "m" (some (nameAt 33 "n"))],
      .labeled (column 36) "next" (.whileDo (column 42) (nameAt 49 "n") (.block (.mk (column 52) [
        .switch (column 54) (nameAt 62 "m") [
          .mk (column 67) "again" [.value (nameAt 79 "n")] [
            .expr (column 82) (.assign (column 82) (nameAt 82 "n") (nameAt 86 "m")),
            .continueOn (column 89) "again"],
          .mk (column 105) "" [.default] [.continueOn (column 114) "next"]],
        .breakOut (column 131) ""])))]))⟩]

theorem restarting_lexical : (resolveProgram restarting { nextId := 0 }).2.2 = [] ∧
    ∀ m ∈ (resolveProgram restarting { nextId := 0 }).1.members,
      MemberLexical (· ∈ programMarks restarting) m := by
  have h : (resolveProgram restarting { nextId := 0 }).2.2 = [] :=
    List.isEmpty_iff.mp (by decide +kernel)
  exact ⟨h, resolve_lexical restarting 0 h⟩

end Example

end Flowgraph.Resolve
