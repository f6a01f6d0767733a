import Flowgraph.Proofs.Grammar.Printed
import Mathlib.Data.List.Nodup

/-! # A function that returns an operation

The text of an operation is read back from a function that declares its variables.
-/

namespace Flowgraph.Reading

open Grammar Lexer Resolve
open Tree (Ref Alike IsOperation)

variable {vars : List Ref} {e : Tree.Expr} {s : String}

/-- Variables are declared before the value of `text` is returned. -/
def declaring : List String → String → String
  | [], text => "return " ++ text ++ ";"
  | name :: names, text => "var " ++ name ++ "; " ++ declaring names text

def returning (names : List String) (text : String) : String :=
  "library t;\nfun f() \x7b" ++ declaring names text ++ "\x7d"

/-- The variables that are declared one after the other. -/
def refsFrom : Nat → List String → List Ref
  | _, [] => []
  | id, name :: names => ⟨id, name⟩ :: refsFrom (id + 1) names

theorem name_refsFrom {id : Nat} {names : List String} {v : Ref} (h : v ∈ refsFrom id names) :
    v.name ∈ names := by
  induction names generalizing id with
  | nil => cases h
  | cons name names ih =>
    rcases List.mem_cons.mp h with rfl | h
    · simp
    · exact List.mem_cons_of_mem _ (ih h)

/-- The tokens are declarations of these variables and then a return of what means `e`. -/
inductive Declaring (vars : List Ref) (e : Tree.Expr) : List String → List Token → Prop
  | giveBack {ts : List Token} {q q' : Position} : Written vars 0 e ts →
      Declaring vars e [] (⟨.keyword, "return", q⟩ :: (ts ++ [⟨.operator, ";", q'⟩]))
  | declare {name : String} {names : List String} {ts : List Token} {q q' q'' : Position} :
      Declaring vars e names ts → Declaring vars e (name :: names)
        (⟨.keyword, "var", q⟩ :: ⟨.ident, name, q'⟩ :: ⟨.operator, ";", q''⟩ :: ts)

theorem lexes_declaring {names : List String} (hnames : ∀ name ∈ names, IsName name)
    (he : Lexes s.toList (Written vars 0 e)) :
    Lexes (declaring names s).toList (Declaring vars e names) := by
  induction names with
  | nil =>
    have htext : (declaring [] s).toList = ("return".toList ++ ' ' :: s.toList) ++ [';'] := by
      simp [declaring]
    rw [htext]
    refine (((lexes_keyword (by decide)).join he).before (by decide) (by decide)).imp ?_
    rintro _ ⟨_, _, rfl, ⟨_, us, rfl, ⟨q, rfl⟩, hus⟩, q', rfl⟩
    exact .giveBack hus
  | cons name names ih =>
    have htext : (declaring (name :: names) s).toList =
        (("var".toList ++ ' ' :: name.toList) ++ [';']) ++ ' ' :: (declaring names s).toList := by
      simp [declaring]
    have hrest := ih fun name' h => hnames name' (by simp [h])
    rw [htext]
    refine ((((lexes_keyword (by decide)).join (lexes_name (hnames name (by simp)))).before (by decide)
      (by decide)).join hrest).imp ?_
    rintro _ ⟨_, vs, rfl, ⟨_, _, rfl, ⟨_, _, rfl, ⟨q, rfl⟩, q', rfl⟩, q'', rfl⟩, hvs⟩
    exact .declare hvs

/-- The statements of the surface. -/
inductive Declares (x : Surface.Expr) : List String → List Surface.Stmt → Prop
  | giveBack {p : Position} : Declares x [] [.giveBack p (some x)]
  | declare {name : String} {names : List String} {ss : List Surface.Stmt} {p q : Position} :
      Declares x names ss → Declares x (name :: names) (.declare p .var [.mk q name none] :: ss)

theorem Declaring.loops {names : List String} {ts : List Token} (h : Declaring vars e names ts) {n : Nat}
    (hn : 16 * ts.length + 2 < n) (q : Position) (rest : List Token) :
    ∃ x ss, Means vars x e ∧ Declares x names ss ∧ Loops n none (sub .statements .statement)
      (ts ++ ⟨.operator, "\x7d", q⟩ :: rest) (ss.map fun s => (.statements, .piece (.stmt s)))
      (⟨.operator, "\x7d", q⟩ :: rest) := by
  induction h with
  | @giveBack ts p p' he =>
    obtain ⟨x, hx, hmeans⟩ := (he.climb (k := 10) (by decide) (by decide)).next .operator ";" (by decide) p'
      (⟨.operator, "\x7d", q⟩ :: rest)
    have hreturn : Reads (16 * ts.length + 11) .returnStmt
        (⟨.keyword, "return", p⟩ :: (ts ++ ⟨.operator, ";", p'⟩ :: ⟨.operator, "\x7d", q⟩ :: rest))
        (.stmt (.giveBack p (some x))) (⟨.operator, "\x7d", q⟩ :: rest) :=
      ⟨_, .cons .keyword (.cons (.optional (.keep (.rule hx (Nat.lt_succ_self _))))
        (.cons .operator .nil)), rfl⟩
    have hstmt : Reads (16 * ts.length + 12) .statement _ (.stmt (.giveBack p (some x))) _ :=
      ⟨_, .choose 11 rfl fits_ahead rfl (.keep (.rule hreturn (Nat.lt_succ_self _))), rfl⟩
    refine ⟨x, [.giveBack p (some x)], hmeans, .giveBack, ?_⟩
    simp only [List.length_cons, List.length_append] at hn
    rw [List.cons_append, List.append_assoc]
    exact .cons (.keep (.rule hstmt (by omega))) (by simp; omega) (.nil fits_ahead rfl)
  | @declare name names ts p p' p'' _ ih =>
    simp only [List.length_cons] at hn
    obtain ⟨x, ss, hmeans, hss, hloops⟩ := ih (by omega)
    have hdeclarator : Reads 0 .declarator
        (⟨.ident, name, p'⟩ :: ⟨.operator, ";", p''⟩ :: (ts ++ ⟨.operator, "\x7d", q⟩ :: rest))
        (.declarator (.mk p' (String.join [name]) none))
        (⟨.operator, ";", p''⟩ :: (ts ++ ⟨.operator, "\x7d", q⟩ :: rest)) :=
      ⟨_, .cons (.keep (.token rfl)) (.cons (.skip fits_ahead rfl) .nil), rfl⟩
    have hvariable : Reads 1 .variableStmt (⟨.keyword, "var", p⟩ :: _)
        (.stmt (.declare p .var [.mk p' (String.join [name]) none])) _ :=
      ⟨_, .cons (.oneOf (by decide) (by decide)) (.cons (.keep (.rule hdeclarator Nat.zero_lt_one))
        (.cons (.skip fits_ahead rfl) (.cons .operator .nil))), rfl⟩
    have hstmt : Reads 2 .statement _ (.stmt (.declare p .var [.mk p' (String.join [name]) none])) _ :=
      ⟨_, .choose 2 rfl fits_ahead rfl (.keep (.rule hvariable (Nat.lt_succ_self _))), rfl⟩
    have htext : String.join [name] = name := by simp [String.join]
    rw [htext] at hstmt
    exact ⟨x, .declare p .var [.mk p' name none] :: ss, hmeans, .declare hss,
      .cons (.keep (.rule hstmt (by omega))) (by simp; omega) hloops⟩

theorem reads_function {n : Nat} {ts : List Token} {ss : List Surface.Stmt}
    (p4 p5 p6 p7 p8 : Position) {p9 p10 : Position}
    (h : Loops n none (sub .statements .statement) ts (ss.map fun s => (.statements, .piece (.stmt s)))
      [⟨.operator, "\x7d", p9⟩, ⟨.eof, "", p10⟩]) :
    Reads (n + 3) .member (⟨.keyword, "fun", p4⟩ :: ⟨.ident, "f", p5⟩ :: ⟨.operator, "(", p6⟩ ::
      ⟨.operator, ")", p7⟩ :: ⟨.operator, "\x7b", p8⟩ :: ts) (.member ⟨p4, false, false,
        .procedure p4 .method "f" (some (.mk p6 [])) (.block (.mk p8 ss))⟩) [⟨.eof, "", p10⟩] := by
  have hblock : Reads n .block (⟨.operator, "\x7b", p8⟩ :: ts) (.block (.mk p8 ss)) [⟨.eof, "", p10⟩] := by
    refine ⟨_, .cons .operator (.cons (.many h) (.cons .operator .nil)), ?_⟩
    refine congrArg (Except.ok ∘ Surface.Piece.block ∘ .mk p8) ?_
    simp [Surface.Kept.stmts, Surface.Kept.pieces, keepUnder, List.filterMap_map]
  have hparams : Reads n .parameters (⟨.operator, "(", p6⟩ :: ⟨.operator, ")", p7⟩ ::
      ⟨.operator, "\x7b", p8⟩ :: ts) (.parameters (.mk p6 [])) (⟨.operator, "\x7b", p8⟩ :: ts) :=
    ⟨_, .cons .operator (.cons (.skip fits_ahead rfl) (.cons .operator .nil)), rfl⟩
  have hbody : Reads (n + 1) .functionBody _ (.body (.block (.mk p8 ss))) _ :=
    ⟨_, .this (.keep (.rule hblock (by omega))), rfl⟩
  have hprocedure : Reads (n + 2) .procedure (⟨.keyword, "fun", p4⟩ :: ⟨.ident, "f", p5⟩ :: _)
      (.shape (.procedure p4 .method "f" (some (.mk p6 [])) (.block (.mk p8 ss)))) _ :=
    ⟨_, .cons (.oneOf (by decide) (by decide)) (.cons (.optional (.keep (.token rfl))) (.cons (.optional
      (.keep (.rule hparams (by omega)))) (.cons (.keep (.rule hbody (by omega))) .nil))), rfl⟩
  exact ⟨_, .cons (.skip fits_ahead rfl) (.cons (.skip fits_ahead rfl) (.cons (.once (.later fits_ahead rfl
    (.later fits_ahead rfl (.this (.keep (.rule hprocedure (by omega))))))) .nil)), rfl⟩

/-- Variables of different names in the innermost scope are seen. -/
theorem sees_scope {s : State} {scope : List Binding} {outer : List (List Binding)}
    (hs : s.scopes = scope :: outer) (hnodup : (scope.map (·.ref.name)).Nodup) :
    Sees (scope.map (·.ref)) s := by
  intro v hv
  obtain ⟨b, hb, rfl⟩ := List.mem_map.mp hv
  have hfind : scope.find? (·.ref.name = b.ref.name) = some b := by
    obtain ⟨c, hc⟩ : ∃ c, scope.find? (·.ref.name = b.ref.name) = some c :=
      Option.isSome_iff_exists.mp (List.find?_isSome.mpr ⟨b, hb, by simp⟩)
    have hname : c.ref.name = b.ref.name := by simpa using List.find?_some hc
    rw [hc, List.inj_on_of_nodup_map hnodup (List.mem_of_find?_eq_some hc) hb hname]
  simp [State.lookup, hs, hfind]

theorem resolve_variable {s : State} {scope : List Binding} {outer : List (List Binding)} {name : String}
    (p q : Position) (hs : s.scopes = scope :: outer) (hnew : name ∉ scope.map (·.ref.name)) :
    resolveStmt "" (.declare p .var [.mk q name none]) s =
      ([.declare { id := s.nextId, place := q, name }],
        { s with
          nextId := s.nextId + 1, scopes := (scope ++ [⟨⟨s.nextId, name⟩, false⟩]) :: outer }, []) := by
  have hnone : (scope.any fun b => b.ref.name = name) = false := by
    simpa using fun b hb h => hnew (List.mem_map.mpr ⟨b, hb, h⟩)
  have hdeclare : declare { id := s.nextId, place := q, name } { s with nextId := s.nextId + 1 } =
      ((), { s with
        nextId := s.nextId + 1, scopes := (scope ++ [⟨⟨s.nextId, name⟩, false⟩]) :: outer }, []) := by
    rw [declare, bind_eq (t := { s with nextId := s.nextId + 1 }) rfl]
    simp only [hs, List.headD_cons, hnone, Bool.false_eq_true, if_false]
    rfl
  rw [resolveStmt, resolveDeclarators, bind_eq (t := { s with nextId := s.nextId + 1 }) rfl, resolveOption,
    bind_eq (t := { s with nextId := s.nextId + 1 }) rfl]
  exact (bind_eq hdeclare).trans rfl

theorem resolve_declares {x : Surface.Expr} {names : List String} {ss : List Surface.Stmt}
    (h : Declares x names ss) {s : State} {scope : List Binding} {outer : List (List Binding)}
    (hs : s.scopes = scope :: outer) (hnodup : (scope.map (·.ref.name) ++ names).Nodup)
    (hx : Means (scope.map (·.ref) ++ refsFrom s.nextId names) x e) :
    ∃ (ds : List Tree.Declaration) (p : Position) (e' : Tree.Expr) (s' : State),
      resolveStmts ss s = (ds.map .declare ++ [.giveBack p (some e')], s', []) ∧
      ds.map (·.ref) = refsFrom s.nextId names ∧ Alike e e' := by
  induction h generalizing s scope with
  | @giveBack p =>
    rw [refsFrom, List.append_nil] at hx
    rw [List.append_nil] at hnodup
    obtain ⟨e', hresolve, he⟩ := hx s (sees_scope hs hnodup)
    refine ⟨[], p, e', s, ?_, rfl, he⟩
    have hstmt : resolveStmt "" (.giveBack p (some x)) s = ([.giveBack p (some e')], s, []) := by
      rw [resolveStmt, resolveOption, bind_eq (bind_eq hresolve)]
      rfl
    rw [resolveStmts, bind_eq hstmt]
    rfl
  | @declare name names ss p q _ ih =>
    have hnew : name ∉ scope.map (·.ref.name) := fun hmem =>
      (List.nodup_append.mp hnodup).2.2 name hmem name (by simp) rfl
    obtain ⟨ds, r, e', s', hrest, hds, he⟩ := ih (s := { s with
        nextId := s.nextId + 1, scopes := (scope ++ [⟨⟨s.nextId, name⟩, false⟩]) :: outer }) rfl
      (by simpa using hnodup) (by simpa [refsFrom] using hx)
    refine ⟨{ id := s.nextId, place := q, name } :: ds, r, e', s', ?_, by simp [refsFrom, hds]; rfl, he⟩
    rw [resolveStmts, bind_eq (resolve_variable p q hs hnew), bind_eq hrest]
    rfl

theorem inScope_eq {α : Type} {m : ResolveM α} {s s' : State} {a : α}
    (h : m { s with scopes := [] :: s.scopes } = (a, s', [])) :
    inScope m s = (a, { s' with scopes := s'.scopes.tail }, []) := by
  rw [inScope, bind_eq (t := { s with scopes := [] :: s.scopes }) rfl, bind_eq h]
  rfl

theorem resolve_function {ss : List Surface.Stmt} {stmts : List Tree.Stmt} {s' : State} (q r b : Position)
    (h : resolveStmts ss { members := ["f"], scopes := [[], []], nextId := 2 } = (stmts, s', [])) :
    ∃ s'', function (resolveSignature q (some (.mk r []))) (resolveBody q false (.block (.mk b ss)))
      { members := ["f"], nextId := 0 } = (⟨0, r, [], 0, [], some (.block 1 b stmts)⟩, s'', []) := by
  have hblock : resolveBlock (.mk b ss) { members := ["f"], scopes := [[]], nextId := 1 } =
      (.block 1 b stmts, { s' with scopes := s'.scopes.tail }, []) := by
    rw [resolveBlock, bind_eq (t := { members := ["f"], scopes := [[]], nextId := 2 }) rfl,
      bind_eq (inScope_eq h)]
    rfl
  have hinside : (do
      let f ← resolveSignature q (some (.mk r []))
      return { f with body := ← resolveBody q false (.block (.mk b ss)) } : ResolveM Tree.Function)
      { members := ["f"], scopes := [[]], nextId := 0 } =
        (⟨0, r, [], 0, [], some (.block 1 b stmts)⟩, { s' with scopes := s'.scopes.tail }, []) := by
    rw [bind_eq (a := ⟨0, r, [], 0, [], none⟩) (t := { members := ["f"], scopes := [[]], nextId := 1 }),
      resolveBody, bind_eq (bind_eq hblock)]
    · rfl
    · rw [resolveSignature, resolveParameters]
      rfl
  refine ⟨{ s' with scopes := s'.scopes.tail.tail, targets := [] }, ?_⟩
  rw [function, enclosed, bind_eq (t := { members := ["f"], nextId := 0 }) rfl,
    bind_eq (t := { members := ["f"], nextId := 0 }) rfl, bind_eq (inScope_eq hinside)]
  rfl

theorem resolveProgram_function {ss : List Surface.Stmt} {stmts : List Tree.Stmt} {s' : State}
    (p q r b : Position)
    (h : resolveStmts ss { members := ["f"], scopes := [[], []], nextId := 2 } = (stmts, s', [])) :
    let result := resolveProgram ⟨p, "t", [.member ⟨q, false, false,
      .procedure q .method "f" (some (.mk r [])) (.block (.mk b ss))⟩]⟩ { nextId := 0 }
    result.2.2 = [] ∧
      result.1.procedures.map (fun f => f.function.bind (·.body)) = [some (.block 1 b stmts)] := by
  obtain ⟨s'', hfunction⟩ := resolve_function q r b h
  have hprocedure : resolveProcedure false q .method "f" false false (some (.mk r [])) (.block (.mk b ss))
      { members := ["f"], nextId := 0 } =
        (some ⟨q, "f", .method, false, false, some ⟨0, r, [], 0, [], some (.block 1 b stmts)⟩⟩, s'', []) :=
    (bind_eq hfunction).trans rfl
  have hmember : resolveMember none {} ⟨q, false, false,
      .procedure q .method "f" (some (.mk r [])) (.block (.mk b ss))⟩ { members := ["f"], nextId := 0 } =
        ({ procedures := [⟨q, "f", .method, false, false,
          some ⟨0, r, [], 0, [], some (.block 1 b stmts)⟩⟩] }, s'', []) :=
    (bind_eq hprocedure).trans rfl
  rw [resolveProgram, bind_eq (t := { members := ["f"], nextId := 0 }) rfl, List.foldlM_cons,
    resolveDeclaration, bind_eq (bind_eq (bind_eq hmember))]
  exact ⟨rfl, rfl⟩

theorem scans_function (p : Position) (rest : List Char) : ∃ ts q, Scans
    ⟨[.root], p, "library t;\nfun f() \x7b".toList ++ rest⟩ ts ⟨[.root], q, rest⟩ ∧
    ∃ p1 p2 p3 p4 p5 p6 p7 p8, significant ts = [⟨.keyword, "library", p1⟩, ⟨.ident, "t", p2⟩,
      ⟨.operator, ";", p3⟩, ⟨.keyword, "fun", p4⟩, ⟨.ident, "f", p5⟩, ⟨.operator, "(", p6⟩,
      ⟨.operator, ")", p7⟩, ⟨.operator, "\x7b", p8⟩] :=
  ⟨_, _, .cons "library".toList rfl (.cons [' '] rfl (.cons ['t'] rfl (.cons [';'] rfl
    (.cons ['\n'] rfl (.cons "fun".toList rfl (.cons [' '] rfl (.cons ['f'] rfl (.cons ['('] rfl
    (.cons [')'] rfl (.cons [' '] rfl (.cons ['\x7b'] rfl .nil))))))))))), _, _, _, _, _, _, _, _, rfl⟩

theorem parse_returning (file : String) {names : List String} (hnames : ∀ name ∈ names, IsName name)
    (he : Lexes s.toList (Written vars 0 e)) : ∃ p q r b x ss, Means vars x e ∧ Declares x names ss ∧
      Surface.parse file (returning names s) = .ok ⟨p, "t", [.member ⟨q, false, false,
        .procedure q .method "f" (some (.mk r [])) (.block (.mk b ss))⟩]⟩ := by
  have hsource : (returning names s).toList =
      "library t;\nfun f() \x7b".toList ++ ((declaring names s).toList ++ ['\x7d']) := by
    have hlast : "\x7d".toList = ['\x7d'] := rfl
    unfold returning
    simp only [String.toList_append, List.append_assoc, hlast]
  obtain ⟨front, q1, hfront, p1, p2, p3, p4, p5, p6, p7, p8, hfront'⟩ :=
    scans_function { file, line := 1, column := 1 } ((declaring names s).toList ++ ['\x7d'])
  obtain ⟨ts, q2, hscans, body, _, hts, hbody, p9, rfl⟩ :=
    ((lexes_declaring hnames he).before (c := '\x7d') (by decide) (by decide)).scans q1 [] (by simp [Breaks])
  rw [List.append_nil] at hscans
  have hall := hfront.trans hscans
  rw [← hsource] at hall
  obtain ⟨x, ss, hmeans, hss, hloops⟩ := hbody.loops (Nat.lt_succ_self _) p9 [⟨.eof, "", q2⟩]
  have hprogram := reads_library p1 p2 p3 (reads_function p4 p5 p6 p7 p8 hloops) (by simp) rfl
  have hsignificant : ⟨.keyword, "library", p1⟩ :: ⟨.ident, "t", p2⟩ :: ⟨.operator, ";", p3⟩ ::
      ⟨.keyword, "fun", p4⟩ :: ⟨.ident, "f", p5⟩ :: ⟨.operator, "(", p6⟩ :: ⟨.operator, ")", p7⟩ ::
      ⟨.operator, "\x7b", p8⟩ :: (body ++ [⟨.operator, "\x7d", p9⟩, ⟨.eof, "", q2⟩]) =
      significant (front ++ ts ++ [⟨.eof, "", q2⟩]) := by
    simp only [significant, List.filter_append] at hfront' hts ⊢
    rw [hfront', hts]
    simp [Token.isSkipped]
  refine ⟨p1, p4, p6, p8, x, ss, hmeans, hss, ?_⟩
  have hfuel : 16 * body.length + 3 + 5 + Grammar.sight <
      rulesPerToken * ((significant (front ++ ts ++ [⟨.eof, "", q2⟩])).length + 1) := by
    rw [← hsignificant]
    simp [Grammar.sight, rulesPerToken]
    omega
  rw [hsignificant] at hprogram
  rw [Surface.parse, tokens?_of_scans hall rfl]
  exact congrArg (Except.mapError _) (program?_of_reads hprogram rfl hfuel)

/-- An operation on local variables is read again from its text, with nothing to report. -/
theorem ofSource_operation (file : String) {names : List String} (hnames : ∀ name ∈ names, IsName name)
    (hnodup : names.Nodup) (h : IsOperation (refsFrom 2 names) e) :
    ∃ (library : Tree.Library) (p q : Position) (ds : List Tree.Declaration) (e' : Tree.Expr),
      Reading.ofSource file (returning names e.render) = ⟨some library, []⟩ ∧
      library.procedures.map (fun f => f.function.bind (·.body)) =
        [some (.block 1 p (ds.map .declare ++ [.giveBack q (some e')]))] ∧
      ds.map (·.ref) = refsFrom 2 names ∧ e'.unplaced = e.unplaced := by
  have hvars : ∀ v ∈ refsFrom 2 names, IsName v.name := fun v hv => hnames v.name (name_refsFrom hv)
  obtain ⟨p, q, r, b, x, ss, hmeans, hss, hparse⟩ := parse_returning file hnames (lexes_render hvars h)
  obtain ⟨ds, place, e', s', hresolve, hds, he⟩ := resolve_declares hss
    (s := { members := ["f"], scopes := [[], []], nextId := 2 }) rfl hnodup hmeans
  obtain ⟨hdiagnostics, hprocedures⟩ := resolveProgram_function p q r b hresolve
  refine ⟨_, b, place, ds, e', ?_, hprocedures, hds, he⟩
  rw [Reading.ofSource, Reading.ofSourceFrom, hparse]
  exact congrArg (Reading.mk _) hdiagnostics

/-- The operation `(!a || (b is T)) ? (-a + 1) : [null, b]` on the two variables. -/
def sampleOperation : Tree.Expr :=
  let a := Tree.Expr.get .unknown ⟨2, "a"⟩
  let b := Tree.Expr.get .unknown ⟨3, "b"⟩
  .conditional .unknown (.logical .unknown .or (.not .unknown a) (.isType .unknown b "T"))
    (.methodCall .unknown (.methodCall .unknown a "unary-" ⟨[], []⟩) "+" ⟨[.int .unknown 1], []⟩)
    (.list .unknown [.null .unknown, b] false)

theorem ofSource_sampleOperation : ∃ (library : Tree.Library) (p q : Position)
    (ds : List Tree.Declaration) (e' : Tree.Expr),
      Reading.ofSource "f" (returning ["a", "b"] sampleOperation.render) = ⟨some library, []⟩ ∧
      library.procedures.map (fun f => f.function.bind (·.body)) =
        [some (.block 1 p (ds.map .declare ++ [.giveBack q (some e')]))] ∧
      ds.map (·.ref) = [⟨2, "a"⟩, ⟨3, "b"⟩] ∧ e'.unplaced = sampleOperation.unplaced := by
  have ha : IsOperation [⟨2, "a"⟩, ⟨3, "b"⟩] (.get .unknown ⟨2, "a"⟩) := .get (by simp)
  have hb : IsOperation [⟨2, "a"⟩, ⟨3, "b"⟩] (.get .unknown ⟨3, "b"⟩) := .get (by simp)
  have hlist : ∀ e ∈ [Tree.Expr.null .unknown, .get .unknown ⟨3, "b"⟩],
      IsOperation [⟨2, "a"⟩, ⟨3, "b"⟩] e := by
    intro e he
    rcases List.mem_pair.mp he with rfl | rfl
    · exact .null
    · exact hb
  exact ofSource_operation "f" (by decide : ∀ name ∈ ["a", "b"], IsName name) (by decide)
    (.conditional (.logical (.not ha) (.isType (by decide) hb))
      (.binary (by decide) (.negate (by simp) ha) (.int (by decide))) (.list hlist))

end Flowgraph.Reading
