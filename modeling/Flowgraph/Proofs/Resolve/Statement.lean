import Mathlib.Data.List.Induction
import Flowgraph.Proofs.Resolve.Jump

/-! # Statements and the labels in front of them

A source statement becomes a list of statements. A written label in front of it belongs to the loop
that it becomes.
-/

namespace Flowgraph.Resolve

open Flowgraph.Scoping (stmtMoves)
open Flowgraph.Tree (Ref)

variable {n : Nat} {vars : List Binding} {W : Mark → Prop}

variable {F : List Frame} {loopLabel : String} {place : Position} {body : ResolveM (List Tree.Stmt)}
  {t : Target} {heads : List CaseHead}

/-! ## Declarations -/

/-- The variables in sight after declarations. -/
def afterDecls (vars : List Binding) : List Tree.Declaration → List Binding
  | [] => vars
  | d :: rest => afterDecls (binding d :: vars) rest

/-- The variables in sight after statements. -/
def afterStmts (vars : List Binding) : List Tree.Stmt → List Binding
  | [] => vars
  | s :: rest => afterStmts (declared s ++ vars) rest

theorem afterDecls_append (ds es : List Tree.Declaration) :
    afterDecls vars (ds ++ es) = afterDecls (afterDecls vars ds) es := by
  induction ds generalizing vars with
  | nil => rfl
  | cons d ds ih => exact ih

theorem afterStmts_append (l r : List Tree.Stmt) :
    afterStmts vars (l ++ r) = afterStmts (afterStmts vars l) r := by
  induction l generalizing vars with
  | nil => rfl
  | cons s l ih => exact ih

theorem DeclarationsLexical.append {ds es : List Tree.Declaration} {vars' vars'' : List Binding}
    (hd : DeclarationsLexical W vars ds vars') (he : DeclarationsLexical W vars' es vars'') :
    DeclarationsLexical W vars (ds ++ es) vars'' := by
  induction ds generalizing vars with
  | nil =>
    cases hd
    exact he
  | cons d ds ih =>
    cases hd with
    | cons hnew hinit hrest => exact .cons hnew hinit (ih hrest)

theorem StmtsLexical.append {l r : List Tree.Stmt} (hl : StmtsLexical W vars F l)
    (hr : StmtsLexical W (afterStmts vars l) F r) : StmtsLexical W vars F (l ++ r) := by
  induction l generalizing vars with
  | nil => exact hr
  | cons s l ih =>
    cases hl with
    | cons hs hl => exact .cons hs (ih hl hr)

/-! ## Labels in front of a statement -/

/-- The label that names the loop to which a source statement is resolved. -/
def Names (loopLabel : String) (s : Surface.Stmt) (written : Option Ref) : Prop :=
  isLoop s = true → ∀ label ≠ "", (Front.isNamed { written } label ↔ loopLabel = label)

/-- What a source statement becomes, under the label in front of it. -/
structure Found (W : Mark → Prop) (vars : List Binding) (loopLabel : String) (s : Surface.Stmt)
    (l : List Tree.Stmt) (F : List Frame) : Prop where
  many : loopLabel = "" → StmtsLexical W vars F l
  one : ∀ x, l = [x] → ∀ written, Names loopLabel s written → StmtLexical W vars F { written } x
  loop : isLoop s = true → ∃ x, l = [x]

theorem Found.of_one {s : Surface.Stmt} {x : Tree.Stmt}
    (h : ∀ written, Names loopLabel s written → StmtLexical W vars F { written } x) :
    Found W vars loopLabel s [x] F where
  many hl := by
    refine .cons (h none fun _ label hlabel => ?_) .nil
    simpa [Front.isNamed, hl] using hlabel.symm
  one y hy := by
    obtain rfl : x = y := by simpa using hy
    exact h
  loop _ := ⟨x, rfl⟩

theorem Found.of_declare {s : Surface.Stmt} {ds : List Tree.Declaration} (hs : isLoop s = false)
    (h : DeclarationsLexical W vars ds (afterDecls vars ds)) :
    Found W vars loopLabel s (ds.map .declare) F where
  many _ := by
    induction ds generalizing vars with
    | nil => exact .nil
    | cons d ds ih =>
      cases h with
      | cons hnew hinit hrest => exact .cons (.declare hnew hinit) (ih hrest)
  one x hx := by
    obtain ⟨d, rfl, rfl⟩ := List.map_eq_singleton_iff.mp hx
    cases h with
    | cons hnew hinit _ => exact fun _ _ => .declare hnew hinit
  loop h := by simp [hs] at h

theorem makes_nested {s : Surface.Stmt} (hloop : isLoop s = false → loopLabel = "")
    (h : Makes n vars body (afterStmts vars) (Found W vars loopLabel s)) :
    Keeps n vars (nested place body) fun x F =>
      ∀ written, Names loopLabel s written → StmtLexical W vars F { written } x := by
  refine h.leaves.inScope.bind fun l => ?_
  split
  · exact makes_pure (by simp) fun F hl => hl.one _ rfl
  · rename_i hmany
    refine .node fun id => makes_pure (by simp [stmtMoves]) fun F hl written _ =>
      .block (hl.many (hloop ?_))
    refine Bool.eq_false_iff.mpr fun h => ?_
    obtain ⟨x, rfl⟩ := hl.loop h
    exact hmany x rfl

theorem makes_plain {s : Surface.Stmt}
    (h : Makes n vars body (afterStmts vars) (Found W vars "" s)) :
    Keeps n vars (nested place body) fun x F => StmtLexical W vars F {} x := by
  refine (makes_nested (fun _ => rfl) h).mono fun x F hx => hx none fun _ label hlabel => ?_
  simpa [Front.isNamed] using hlabel.symm

/-! ## Loops and switches -/

theorem stmtLexical_wrapBreak {written : Option Ref} {s : Tree.Stmt}
    (hs : isJumpedOutOf s = true) (ht : ∀ r ∈ t.breakTo, r.id ∉ F.flatMap Frame.labels)
    (h : StmtLexical W vars F { written, made := t.breakTo } s) :
    StmtLexical W vars F { written } (wrapBreak t s) := by
  rw [wrapBreak]
  split
  · rename_i r hr
    rw [hr] at h ht
    exact .made hs (ht r rfl) h
  · rename_i hr
    rwa [hr] at h

theorem afterStmts_wrapBreak {s : Tree.Stmt} (hs : declared s = []) :
    afterStmts vars [wrapBreak t s] = vars := by
  rw [wrapBreak]
  split
  · rfl
  · simp [afterStmts, hs]

/-- The body of a loop under the labels in front of the loop, and the target that the loop was. -/
def LoopFound (W : Mark → Prop) (vars : List Binding) (loopLabel : String) (x : Tree.Stmt × Target)
    (F : List Frame) : Prop :=
  (∀ r ∈ x.2.breakTo, r.id ∉ F.flatMap Frame.labels) ∧
    ∀ front : Front, front.made = x.2.breakTo →
      (∀ label ≠ "", (front.isNamed label ↔ loopLabel = label)) → LoopLexical W vars F front x.1

theorem makes_loopBody (h : Keeps n vars (nested place body) fun x F => StmtLexical W vars F {} x) :
    Keeps n vars (loopBody loopLabel place body) (LoopFound W vars loopLabel) := by
  refine (h.targeted rfl).bind fun x => makes_pure (by simp) fun F hx => ?_
  obtain ⟨y, t⟩ := x
  obtain ⟨hleft, hbody⟩ := hx
  have hsame : t =
      { isLoop := true, loopName := loopLabel, breakTo := t.breakTo, continueTo := t.continueTo } :=
    hleft.later.same
  refine ⟨hleft.breakTo_apart, fun front hmade hnamed => ?_⟩
  have hframe : FrameOf t (.loop front t.continueTo) := by
    rw [hsame]
    exact .loop hmade hnamed
  replace hbody : StmtLexical W vars (.loop front t.continueTo :: F) {} y := hbody _ hframe
  show LoopLexical W vars F front (wrapContinue t place y)
  rw [wrapContinue]
  split
  · rename_i r hr
    rw [hr] at hbody
    have hdistinct := hleft.distinct
    rw [Target.labels, List.map_append, List.nodup_append] at hdistinct
    refine .labeled (hleft.apart r.id ?_) (fun q hq => ?_) hbody
    · simp [Target.labels, hr]
    · rw [hmade] at hq
      exact hdistinct.2.2 q.id (List.mem_map_of_mem (Option.mem_toList.mpr hq)) r.id (by simp [hr])
  · rename_i hr
    rw [hr] at hbody
    exact .plain hbody

/-! ## Cases -/

theorem labelled_append (heads : List CaseHead) (h : CaseHead) :
    labelled (heads ++ [h]) = if h.label = "" then labelled heads
      else (labelled heads).filter (·.1 ≠ h.label) ++ [(h.label, ⟨h.id, h.label⟩)] := by
  rw [labelled, List.foldl_append]
  rfl

theorem mem_of_labelled {label : String} {r : Ref}
    (hmem : (label, r) ∈ labelled heads) : ∃ h ∈ heads, r = ⟨h.id, h.label⟩ ∧ label = h.label := by
  induction heads using List.reverseRecOn with
  | nil => simp [labelled] at hmem
  | append_singleton heads h ih =>
    have hearlier (hmem : (label, r) ∈ labelled heads) :
        ∃ g ∈ heads ++ [h], r = ⟨g.id, g.label⟩ ∧ label = g.label := by
      obtain ⟨g, hg, hr⟩ := ih hmem
      exact ⟨g, List.mem_append_left _ hg, hr⟩
    rw [labelled_append] at hmem
    split at hmem
    · exact hearlier hmem
    · rcases List.mem_append.mp hmem with hmem | hmem
      · exact hearlier (List.mem_filter.mp hmem).1
      · obtain ⟨rfl, rfl⟩ : label = h.label ∧ r = ⟨h.id, h.label⟩ := by simpa using hmem
        exact ⟨h, by simp, rfl, rfl⟩

theorem exists_labelled {h : CaseHead} (hmem : h ∈ heads) (hl : h.label ≠ "") :
    ∃ r, (h.label, r) ∈ labelled heads := by
  induction heads using List.reverseRecOn with
  | nil => simp at hmem
  | append_singleton heads g ih =>
    rw [labelled_append]
    by_cases hsame : g.label = h.label
    · exact ⟨⟨g.id, g.label⟩, by simp [hsame, hl]⟩
    · rcases List.mem_append.mp hmem with hmem | hmem
      · obtain ⟨r, hr⟩ := ih hmem
        refine ⟨r, ?_⟩
        split
        · exact hr
        · have hne : ¬h.label = g.label := fun heq => hsame heq.symm
          simp [hr, hne]
      · obtain rfl : h = g := by simpa using hmem
        exact absurd rfl hsame

theorem stmtLexical_switch {written : Option Ref} {subject : Tree.Expr} {cases : List Tree.SwitchCase}
    (ht : Left { isSwitch := true, cases := labelled heads } t F) (hsubject : ExprLexical W vars subject)
    (hcases : ∀ f, FrameOf t f → cases.map caseRef = heads.map (fun h => ⟨h.id, h.label⟩) ∧
      ∀ c ∈ cases, (∀ e ∈ c.tests, ExprLexical W vars e) ∧ StmtLexical W vars (f :: F) {} c.body) :
    StmtLexical W vars F { written } (wrapBreak t (.switch place subject cases)) := by
  have hcontinue : t.continueTo = none := ht.later.isLoop rfl
  have hsame : t =
      { isSwitch := true, cases := labelled heads, breakTo := t.breakTo, continueTo := t.continueTo } :=
    ht.later.same
  have hframe : FrameOf t
      (.switch { written, made := t.breakTo } (heads.map fun h => ⟨h.id, h.label⟩)) := by
    rw [hsame, hcontinue]
    refine .switch rfl (fun label hlabel => ?_) (fun label r hr => ?_)
    · constructor
      · rintro ⟨r, hr, rfl⟩
        obtain ⟨h, hh, rfl⟩ := List.mem_map.mp hr
        exact exists_labelled hh hlabel
      · rintro ⟨r, hr⟩
        obtain ⟨h, hh, -, rfl⟩ := mem_of_labelled hr
        exact ⟨_, List.mem_map_of_mem hh, rfl⟩
    · obtain ⟨h, hh, rfl, rfl⟩ := mem_of_labelled hr
      exact ⟨List.mem_map_of_mem hh, rfl⟩
  obtain ⟨hrefs, hparts⟩ := hcases _ hframe
  rw [← hrefs] at hparts
  exact stmtLexical_wrapBreak rfl ht.breakTo_apart
    (.switch hsubject (fun c hc => (hparts c hc).1) fun c hc => (hparts c hc).2)

end Flowgraph.Resolve
