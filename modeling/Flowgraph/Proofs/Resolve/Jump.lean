import Mathlib.Data.List.Perm.Basic
import Flowgraph.Proofs.Resolve.Run

/-! # Targets of jumps

What is resolved inside a target is said under the frame that the target has become in the end. A
jump is bound to the innermost target that suits it, and the label that it uses is one of the frame.
-/

namespace Flowgraph.Resolve

open Flowgraph.Scoping (stmtMoves)
open Flowgraph.Tree (Ref)

variable {α β : Type} [Numbered α] [Numbered β] {B : β → List Binding} {R : β → List Frame → Prop}
  {n : Nat} {vars : List Binding} {W : Mark → Prop} {l : List Nat}

variable {t : Target} {i : Nat} {F : List Frame} {P : α → List Frame → Prop} {suits : Target → Bool}
  {label : String} {r : Ref} {f : Frame}

/-! ## Inside a target -/

theorem LaterTarget.mem_labels {u : Target} (h : LaterTarget n t u) (hi : i ∈ u.labels) :
    i ∈ t.labels ∨ n ≤ i := by
  have hlabel {a b : Option Ref} (hab : LaterLabel n a b) {r : Ref} (hr : b = some r) :
      a = some r ∨ n ≤ r.id := by
    cases a with
    | some q =>
      obtain rfl : b = some q := hab
      exact .inl hr
    | none => exact .inr (hab r hr)
  simp only [Target.labels, List.map_append, List.mem_append, List.mem_map,
    Option.mem_toList] at hi ⊢
  rcases hi with ⟨r, hr, rfl⟩ | ⟨r, hr, rfl⟩
  · exact (hlabel h.breakTo hr).imp_left fun hr => .inl ⟨r, hr, rfl⟩
  · exact (hlabel h.continueTo hr).imp_left fun hr => .inr ⟨r, hr, rfl⟩

theorem Later.mem_labels {T U : List Target} (h : Later n T U)
    (hi : i ∈ U.flatMap Target.labels) : i ∈ T.flatMap Target.labels ∨ n ≤ i := by
  induction h with
  | nil => exact .inl hi
  | cons ht _ ih =>
    rw [List.flatMap_cons, List.mem_append] at hi ⊢
    rcases hi with hi | hi
    · exact (ht.mem_labels hi).imp_left .inl
    · exact (ih hi).imp_left .inr

/-- What a target has become when it is left. Its labels are not those of the frames around it. -/
structure Left (t u : Target) (F : List Frame) : Prop where
  later : LaterTarget 0 t u
  distinct : u.labels.Nodup
  apart : ∀ i ∈ u.labels, i ∉ F.flatMap Frame.labels

theorem Left.breakTo_apart {u : Target} (h : Left t u F) (r : Ref)
    (hr : r ∈ u.breakTo) : r.id ∉ F.flatMap Frame.labels := by
  refine h.apart r.id ?_
  simp only [Target.labels, List.map_append, List.mem_append, List.mem_map, Option.mem_toList]
  exact .inl ⟨r, hr, rfl⟩

theorem Ok.targeted {m : ResolveM α} {A : α → List Binding}
    {s : State} (h : Makes n vars m A P l) (hn : n ≤ s.nextId) (hi : Inv s vars)
    (hdistinct : (t.labels ++ s.targets.flatMap Target.labels).Nodup)
    (hlabels : ∀ i ∈ t.labels, i < s.nextId) :
    Ok (targeted t m) s fun x u => Step s u ∧ Inv u (A x.1) ∧
      Under u (fun F => Left t x.2 F ∧ ∀ f, FrameOf x.2 f → P x.1 (f :: F)) ∧ Given l (ids x) s u := by
  have hin : Inv { s with targets := t :: s.targets } vars := by
    refine ⟨hi.lookup, hi.numbers, hdistinct, fun i hmem => ?_⟩
    rcases List.mem_append.mp hmem with hmem | hmem
    · exact hlabels i hmem
    · exact hi.labels i hmem
  refine .bind (ok_modify (.bind ((h { s with targets := t :: s.targets } hn hin).mono ?_)))
  rintro a v ⟨hsv, hv, hP, hl⟩
  obtain ⟨u, rest, hu, hrest, hvt⟩ : ∃ u rest, LaterTarget s.nextId t u ∧
      Later s.nextId s.targets rest ∧ v.targets = u :: rest := List.forall₂_cons_left_iff.mp hsv.targets
  have hvdistinct := hv.distinct
  have hvlabels := hv.labels
  rw [hvt, List.flatMap_cons] at hvdistinct hvlabels
  obtain ⟨hudistinct, hrdistinct, hur⟩ := List.nodup_append.mp hvdistinct
  refine .bind (ok_modifyGet (ok_pure ?_))
  rw [hvt]
  refine ⟨⟨hsv.scopes, hsv.nextId, hrest⟩, ⟨hv.lookup, hv.numbers, hrdistinct, fun i hmem =>
    hvlabels i (List.mem_append_right _ hmem)⟩, fun T F hT hF => ⟨⟨?_, hudistinct, ?_⟩, ?_⟩, hl⟩
  · exact (LaterTarget.refl 0 t).trans (Nat.zero_le _) hu
  · -- Labels that are made later have numbers that the target does not have.
    intro i hmem hF'
    rw [hF.labels] at hF'
    rcases hT.mem_labels hF' with hmem' | hlater
    · exact hur i hmem i hmem' rfl
    · exact (hvlabels i (List.mem_append_left _ hmem)).not_ge hlater
  · intro f hf
    refine hP (u :: T) (f :: F) ?_ (.cons hf hF)
    rw [hvt]
    exact .cons (.refl _ u) hT

theorem Makes.targeted {m : ResolveM α} {A : α → List Binding}
    (ht : t.labels = []) (h : Makes n vars m A P l) : Makes n vars (targeted t m) (fun x => A x.1)
      (fun x F => Left t x.2 F ∧ ∀ f, FrameOf x.2 f → P x.1 (f :: F)) l := by
  intro s hn hi
  refine .targeted h hn hi ?_ ?_
  · rw [ht]
    exact hi.distinct
  · simp [ht]

theorem Makes.labeled {m : ResolveM α} {g : Nat → α → β} (label : String)
    (h : ∀ k, Keeps k vars m P) (hB : ∀ id a, B (g id a) = vars)
    (hids : ∀ id a, ids (g id a) = ids a)
    (hg : ∀ id a F, id ∉ F.flatMap Frame.labels → P a (.label ⟨id, label⟩ :: F) → R (g id a) F) :
    Makes n vars (freshId >>= fun id => Resolve.targeted { label, breakTo := some ⟨id, label⟩ } m >>=
      fun x => pure (g id x.1)) B R := by
  intro s hn hi
  refine .bind (ok_freshId ?_)
  have hi' : Inv { s with nextId := s.nextId + 1 } vars :=
    hi.of_eq (fun _ => rfl) rfl (Nat.le_succ _)
  have hdistinct : (s.nextId :: s.targets.flatMap Target.labels).Nodup :=
    List.nodup_cons.mpr ⟨fun hmem => Nat.lt_irrefl _ (hi.labels _ hmem), hi.distinct⟩
  have htarget : Target.labels { label, breakTo := some ⟨s.nextId, label⟩ } = [s.nextId] := rfl
  refine .bind ((Ok.targeted (h _) (Nat.le_refl _) hi' ?_ ?_).mono ?_)
  · rwa [htarget]
  · simp [htarget]
  · rintro ⟨a, u⟩ v ⟨hsv, hv, hP, hl⟩
    have hnext : Step s { s with nextId := s.nextId + 1 } := .of_eq rfl rfl (Nat.le_succ _)
    have hv' : Inv v (B (g s.nextId a)) := by rwa [hB]
    have hgiven : Given [] (ids (g s.nextId a)) s v := by
      rw [hids]
      exact Given.trans (l := []) (k := []) (given_of_count (by simp)) (Nat.le_succ _) hsv.nextId hl
    refine ok_pure ⟨hnext.trans hsv, hv', fun T F hT hF => ?_, hgiven⟩
    obtain ⟨hleft, hP⟩ := hP T F hT hF
    have hbreak : u.breakTo = some ⟨s.nextId, label⟩ := hleft.later.breakTo
    have hcontinue : u.continueTo = none := hleft.later.isLoop rfl
    have hsame : u = { label, breakTo := u.breakTo, continueTo := u.continueTo } := hleft.later.same
    obtain rfl : u = { label, breakTo := some ⟨s.nextId, label⟩ } := by
      rw [hsame, hbreak, hcontinue]
    exact hg _ _ _ (hleft.apart s.nextId (by simp [htarget])) (hP _ (.label (r := ⟨s.nextId, label⟩)))

/-! ## Jumps -/

theorem State.findTarget_eq_some {s : State} (h : s.findTarget suits = some (i, t)) :
    ∃ inner outer, s.targets = inner ++ t :: outer ∧ i = inner.length ∧ suits t = true ∧
      ∀ u ∈ inner, suits u = false := by
  rw [State.findTarget] at h
  split at h
  · rename_i j hj
    obtain ⟨hlt, hsuits, hbefore⟩ := List.findIdx?_eq_some_iff_getElem.mp hj
    obtain ⟨rfl, rfl⟩ : j = i ∧ s.targets[j] = t := by simpa [hlt] using h
    refine ⟨s.targets.take j, s.targets.drop (j + 1), ?_, ?_, hsuits, ?_⟩
    · rw [List.getElem_cons_drop, List.take_append_drop]
    · rw [List.length_take, Nat.min_eq_left hlt.le]
    · intro u hu
      obtain ⟨k, hk, rfl⟩ := List.mem_take_iff_getElem.mp hu
      simpa using hbefore k (by omega)
  · simp at h

/-- The innermost target that suits a jump is the innermost frame that does. -/
theorem innermost_of_later {P : Frame → Prop} {inner outer T : List Target} (hP : ∀ t f, FrameOf t f → (suits t = true ↔ P f))
    (hsuits : ∀ t u, LaterTarget n t u → suits u = suits t) (ht : suits t = true)
    (hinner : ∀ u ∈ inner, suits u = false) (hT : Later n (inner ++ t :: outer) T) (hF : Fits T F) :
    ∃ u f, LaterTarget n t u ∧ FrameOf u f ∧ Innermost P F f := by
  induction inner generalizing T F with
  | nil =>
    obtain ⟨u, T, hu, -, rfl⟩ := List.forall₂_cons_left_iff.mp hT
    obtain ⟨f, F, hf, -, rfl⟩ := List.forall₂_cons_left_iff.mp hF
    have hPf : P f := (hP u f hf).mp ((hsuits t u hu).trans ht)
    exact ⟨u, f, hu, hf, hPf, [], F, rfl, by simp⟩
  | cons v inner ih =>
    obtain ⟨v', T, hv, hrest, rfl⟩ := List.forall₂_cons_left_iff.mp hT
    obtain ⟨g, F, hg, hfits, rfl⟩ := List.forall₂_cons_left_iff.mp hF
    obtain ⟨hv', hinner⟩ := List.forall_mem_cons.mp hinner
    obtain ⟨u, f, hu, hf, hPf, skipped, rest, rfl, hskipped⟩ := ih hinner hrest hfits
    have hPg : ¬P g := fun h => by
      have hv'' := (hP v' g hg).mpr h
      rw [hsuits v v' hv, hv'] at hv''
      exact Bool.false_ne_true hv''
    exact ⟨u, f, hu, hf, hPf, g :: skipped, rest, rfl, List.forall_mem_cons.mpr ⟨hPg, hskipped⟩⟩

theorem ok_labelOf {kind : String} {P : Frame → Prop}
    {read : Target → Option Ref} {write : Ref → Target} {s : State}
    (hP : ∀ t f, FrameOf t f → (suits t = true ↔ P f))
    (hsuits : ∀ n t u, LaterTarget n t u → suits u = suits t)
    (hread : ∀ n t u, LaterTarget n t u → LaterLabel n (read t) (read u))
    (hi : Inv s vars) (hfound : s.findTarget suits = some (i, t))
    (hwrite : ∀ r, read t = none → read (write r) = some r ∧
      (write r).labels.Perm (r.id :: t.labels) ∧ (s.nextId ≤ r.id → LaterTarget s.nextId t (write r))) :
    Ok (labelOf kind (read t) i write) s fun r u => Step s u ∧ Inv u vars ∧
      Under u fun F => ∃ t f, read t = some r ∧ FrameOf t f ∧ Innermost P F f := by
  obtain ⟨inner, outer, hs, rfl, ht, hinner⟩ := State.findTarget_eq_some hfound
  have hunder (u : State) (t' : Target) (r : Ref) (hlater : LaterTarget s.nextId t t')
      (hr : read t' = some r) (hu : u.targets = inner ++ t' :: outer) :
      Under u fun F => ∃ t f, read t = some r ∧ FrameOf t f ∧ Innermost P F f := by
    intro T F hT hF
    rw [hu] at hT
    obtain ⟨v, f, hv, hf, hPf⟩ := innermost_of_later hP (hsuits u.nextId)
      ((hsuits _ t t' hlater).trans ht) hinner hT hF
    have hrv := hread _ _ _ hv
    rw [hr] at hrv
    exact ⟨v, f, hrv, hf, hPf⟩
  cases hr : read t with
  | some r => exact ok_pure ⟨.refl s, hi, hunder s t r (.refl _ t) hr hs⟩
  | none =>
    refine .bind (.bind (ok_freshId (ok_modifyGet (.bind (ok_modify (ok_pure ?_))))))
    generalize hid : (⟨s.nextId, ":" ++ kind ++ toString s.nextLabel⟩ : Ref) = r
    replace hid : r.id = s.nextId := by rw [← hid]
    obtain ⟨hread', hperm, hlater⟩ := hwrite r hr
    replace hlater := hlater hid.ge
    have hset : s.targets.set inner.length (write r) = inner ++ write r :: outer := by simp [hs]
    have hlabels : ((inner ++ write r :: outer).flatMap Target.labels).Perm
        (r.id :: s.targets.flatMap Target.labels) := by
      simp only [hs, List.flatMap_append, List.flatMap_cons]
      exact ((hperm.append_right _).append_left _).trans List.perm_middle
    refine ⟨⟨rfl, Nat.le_succ _, ?_⟩, ⟨hi.lookup, ?_, ?_, ?_⟩, hunder _ _ r hlater hread' hset⟩
    · show Later _ _ (s.targets.set inner.length (write r))
      rw [hset, hs]
      exact List.rel_append (Later.refl _ inner) (.cons hlater (Later.refl _ outer))
    · exact fun b hb => Nat.lt_succ_of_lt (hi.numbers b hb)
    · show ((s.targets.set inner.length (write r)).flatMap Target.labels).Nodup
      rw [hset, hlabels.nodup_iff, hid]
      exact List.nodup_cons.mpr ⟨fun hmem => Nat.lt_irrefl _ (hi.labels _ hmem), hi.distinct⟩
    · show ∀ i ∈ (s.targets.set inner.length (write r)).flatMap Target.labels, i < s.nextId + 1
      intro i hmem
      rw [hset, hlabels.mem_iff, List.mem_cons, hid] at hmem
      rcases hmem with rfl | hmem
      · exact Nat.lt_succ_self _
      · exact Nat.lt_succ_of_lt (hi.labels i hmem)

/-- The frame that a break with the label leaves. -/
def Frame.isLeft (label : String) (f : Frame) : Prop :=
  if label = "" then f.isBreakable else ∃ r, f = .label r ∧ r.name = label

/-- The frame that a continue with the label restarts. -/
def Frame.isContinued (label : String) (f : Frame) : Prop :=
  if label = "" then f.isLoop else f.takes label

theorem goes_breakOut
    (hr : t.breakTo = some r) (hf : FrameOf t f) (hin : Innermost (Frame.isLeft label) F f) :
    Goes F (.breakOut label) (.out r) := by
  by_cases hl : label = ""
  · subst hl
    have hplain : Frame.isLeft "" = Frame.isBreakable := by
      funext f
      simp [Frame.isLeft]
    rw [hplain] at hin
    cases hf with
    | label => exact hin.1.elim
    | loop hmade => exact .break_loop hin (by simp_all [Front.around])
    | switch hmade => exact .break_switch hin (by simp_all [Front.around])
  · have hlabel : Frame.isLeft label = fun f => ∃ r, f = .label r ∧ r.name = label := by
      funext f
      simp [Frame.isLeft, hl]
    rw [hlabel] at hin
    obtain ⟨q, rfl, hq⟩ := hin.1
    cases hf with
    | label =>
      obtain rfl : q = r := Option.some.inj hr
      exact .break_label hl hq hin

theorem goes_continueOn
    (hr : t.continueTo = some r) (hf : FrameOf t f) (hin : Innermost (Frame.isContinued label) F f) :
    Goes F (.continueOn label) (.out r) := by
  cases hf with
  | label => simp at hr
  | switch => simp at hr
  | loop =>
    subst hr
    by_cases hl : label = ""
    · subst hl
      have hplain : Frame.isContinued "" = Frame.isLoop := by
        funext f
        simp [Frame.isContinued]
      exact .continue_loop (hplain ▸ hin)
    · have hlabel : Frame.isContinued label = Frame.takes label := by
        funext f
        simp [Frame.isContinued, hl]
      exact .continue_label hl (hlabel ▸ hin)

theorem goes_case (hs : t.isSwitch = true) (hr : (label, r) ∈ t.cases) (hf : FrameOf t f)
    (hin : Innermost (Frame.isContinued label) F f) : Goes F (.continueOn label) (.case r) := by
  cases hf with
  | label => simp at hs
  | loop => simp at hs
  | switch _ _ hcases =>
    obtain ⟨hmem, hname⟩ := hcases label r hr
    have hl : label ≠ "" := by
      rintro rfl
      have hloop := hin.1
      simp [Frame.isContinued, Frame.isLoop] at hloop
    have hlabel : Frame.isContinued label = Frame.takes label := by
      funext f
      simp [Frame.isContinued, hl]
    exact .continue_case hl hmem hname (hlabel ▸ hin)

theorem makes_breakStmt (place : Position) (label : String) (hW : W (.jump place (.breakOut label))) :
    Makes n vars (breakStmt place label) (fun x => declared x ++ vars) fun x F =>
      ∀ front, StmtLexical W vars F front x := by
  intro s hn hi
  refine .bind (ok_get ?_)
  split
  · rename_i i t hfound
    have hP (t : Target) (f : Frame) (hf : FrameOf t f) :
        (if label = "" then t.isLoop || t.isSwitch else t.label = label : Bool) = true ↔ f.isLeft label := by
      by_cases hl : label = ""
      · cases hf <;> simp [hl, Frame.isLeft, Frame.isBreakable]
      · have hl' : ¬"" = label := fun h => hl h.symm
        cases hf <;> simp [hl, hl', Frame.isLeft]
    refine .bind ((ok_labelOf hP ?_ (fun _ _ _ h => h.breakTo) hi hfound ?_).mono ?_)
    · intro n t u h
      rw [h.same]
    · intro r hr
      refine ⟨rfl, by simp [Target.labels, hr], fun hid => ⟨rfl, ?_, .refl _ _, fun _ => rfl⟩⟩
      rw [hr]
      simpa [LaterLabel] using hid
    · rintro r u ⟨hstep, hu, hgoes⟩
      refine ok_pure ⟨hstep, hu, fun T F hT hF front => .breakOut hW ?_, given_of_count (by simp [stmtMoves])⟩
      obtain ⟨t, f, hr, hf, hin⟩ := hgoes T F hT hF
      exact goes_breakOut hr hf hin
  · split
    · exact .bind (reports_report _).ok
    · exact .bind (reports_undeclaredLabel _ _ _).ok

theorem makes_continueStmt (place : Position) (label : String)
    (hW : W (.jump place (.continueOn label))) :
    Makes n vars (continueStmt place label) (fun x => declared x ++ vars) fun x F =>
      ∀ front, StmtLexical W vars F front x := by
  intro s hn hi
  refine .bind (ok_get ?_)
  split
  · rename_i i t hfound
    have hP (t : Target) (f : Frame) (hf : FrameOf t f) :
        (if label = "" then t.isLoop
          else if t.isSwitch then t.cases.any (·.1 = label)
          else t.isLoop && t.loopName = label) = true ↔ f.isContinued label := by
      by_cases hl : label = ""
      · cases hf <;> simp [hl, Frame.isContinued, Frame.isLoop]
      · cases hf with
        | label => simp [hl, Frame.isContinued, Frame.takes]
        | loop _ hnamed => simpa [hl, Frame.isContinued, Frame.takes] using (hnamed label hl).symm
        | switch _ hnamed _ => simpa [hl, Frame.isContinued, Frame.takes] using (hnamed label hl).symm
    have hsuits (n : Nat) (t u : Target) (h : LaterTarget n t u) :
        (if label = "" then u.isLoop
          else if u.isSwitch then u.cases.any (·.1 = label)
          else u.isLoop && u.loopName = label) =
        (if label = "" then t.isLoop
          else if t.isSwitch then t.cases.any (·.1 = label)
          else t.isLoop && t.loopName = label) := by
      rw [h.same]
    split
    · rename_i hswitch
      split
      · rename_i name r hcase
        obtain rfl : name = label := by simpa using List.find?_some hcase
        refine ok_pure ⟨.refl s, hi, fun T F hT hF front => .continueCase hW ?_,
          given_of_count (by simp [stmtMoves])⟩
        obtain ⟨inner, outer, hs, -, ht, hinner⟩ := State.findTarget_eq_some hfound
        rw [hs] at hT
        obtain ⟨u, f, hu, hf, hin⟩ := innermost_of_later hP (hsuits _) ht hinner hT hF
        refine goes_case ?_ ?_ hf hin
        · rw [hu.same]
          exact hswitch
        · rw [hu.same]
          exact List.mem_of_find?_eq_some hcase
      · exact ok_pure ⟨.refl s, hi, fun T F _ _ front => .plain rfl (by simp),
          given_of_count (by simp [stmtMoves])⟩
    · rename_i hswitch
      refine .bind ((ok_labelOf hP hsuits (fun _ _ _ h => h.continueTo) hi hfound ?_).mono ?_)
      · intro r hr
        refine ⟨rfl, ?_, fun hid => ⟨rfl, .refl _ _, ?_, ?_⟩⟩
        · simp only [Target.labels, hr, Option.toList_some, Option.toList_none, List.append_nil,
            List.map_append, List.map_cons, List.map_nil]
          exact List.perm_append_singleton _ _
        · rw [hr]
          simpa [LaterLabel] using hid
        · -- A target that is no switch suits a continue only if it is a loop.
          obtain ⟨-, -, -, -, ht, -⟩ := State.findTarget_eq_some hfound
          intro hloop
          simp [hloop, hswitch] at ht
      · rintro r u ⟨hstep, hu, hgoes⟩
        refine ok_pure ⟨hstep, hu, fun T F hT hF front => .breakOut hW ?_, given_of_count (by simp [stmtMoves])⟩
        obtain ⟨t, f, hr, hf, hin⟩ := hgoes T F hT hF
        exact goes_continueOn hr hf hin
  · split
    · exact .bind (reports_report _).ok
    · exact .bind (reports_undeclaredLabel _ _ _).ok

end Flowgraph.Resolve
