import Mathlib.Data.List.Forall2
import Mathlib.Data.List.Perm.Subperm
import Mathlib.Order.Nat
import Flowgraph.Proofs.Resolve.Lexical
import Flowgraph.Proofs.Resolve.Numbers

/-! # Runs of name resolution

What resolution makes of the state when it has no complaint: variables are declared in the innermost
scope, and targets get labels. A jump is resolved before all labels around it are made, so what is
said of it is said under all frames that the targets can still become.
-/

namespace Flowgraph.Resolve

open Flowgraph.Tree (Ref)

variable {α β γ : Type}

instance : LawfulMonad ResolveM := by
  refine LawfulMonad.mk' ResolveM (fun m => ?_) (fun _ _ => rfl) (fun m f g => ?_)
  · funext s
    show ((m s).1, (m s).2.1, (m s).2.2 ++ []) = m s
    rw [List.append_nil]
  · funext s
    exact congrArg (fun found => (_, _, found)) (List.append_assoc _ _ _)

/-! ## Runs without diagnostics -/

/-- If resolution finds no diagnostics, this holds of its result. -/
def Ok (m : ResolveM α) (s : State) (Q : α → State → Prop) : Prop :=
  (m s).2.2 = [] → Q (m s).1 (m s).2.1

section Ok

variable {m : ResolveM α} {f : α → ResolveM β} {s : State} {Q : β → State → Prop}

theorem Ok.mono {Q R : α → State → Prop} (h : Ok m s Q) (hQ : ∀ a t, Q a t → R a t) : Ok m s R :=
  fun hd => hQ _ _ (h hd)

theorem Ok.bind (h : Ok m s fun a t => Ok (f a) t Q) : Ok (m >>= f) s Q := by
  intro hd
  obtain ⟨hm, hf⟩ := List.append_eq_nil_iff.mp hd
  exact h hm hf

theorem ok_pure {b : β} (h : Q b s) : Ok (pure b) s Q := fun _ => h

theorem ok_get {Q : State → State → Prop} (h : Q s s) : Ok get s Q := fun _ => h

theorem ok_modify {g : State → State} {Q : PUnit → State → Prop} (h : Q ⟨⟩ (g s)) :
    Ok (modify g) s Q := fun _ => h

theorem ok_modifyGet {g : State → α × State} {Q : α → State → Prop} (h : Q (g s).1 (g s).2) :
    Ok (modifyGet g) s Q := fun _ => h

theorem ok_set {t : State} {Q : PUnit → State → Prop} (h : Q ⟨⟩ t) : Ok (set t) s Q := fun _ => h

theorem ok_freshId {Q : Nat → State → Prop} (h : Q s.nextId { s with nextId := s.nextId + 1 }) :
    Ok freshId s Q := fun _ => h

end Ok

/-- A diagnostic is found in every state. -/
def Reports (m : ResolveM α) : Prop := ∀ s, (m s).2.2 ≠ []

theorem Reports.bind {m : ResolveM α} {f : α → ResolveM β} (h : Reports m) : Reports (m >>= f) :=
  fun s hd => h s (List.append_eq_nil_iff.mp hd).1

theorem Reports.ok {m : ResolveM α} {s : State} {Q : α → State → Prop} (h : Reports m) : Ok m s Q :=
  fun hd => (h s hd).elim

theorem reports_report (d : Diagnostic) : Reports (report d) := fun _ => List.cons_ne_nil _ _

theorem reports_reject (place : Position) (message : String) : Reports (reject place message) :=
  reports_report _

theorem reports_undeclared (place : Position) (name : String) : Reports (undeclared place name) :=
  fun _ => List.cons_ne_nil _ _

theorem reports_undeclaredLabel (place : Position) (jump label : String) :
    Reports (undeclaredLabel place jump label) := fun _ => List.cons_ne_nil _ _

/-! ## Targets and frames -/

/-- The labels that jumps out of a target use. -/
def Target.labels (t : Target) : List Nat := (t.breakTo.toList ++ t.continueTo.toList).map (·.id)

/-- A label is kept, or gets a number that is not used yet. -/
def LaterLabel (n : Nat) : Option Ref → Option Ref → Prop
  | some r, later => later = some r
  | none, later => ∀ r ∈ later, n ≤ r.id

/-- What a target can become when numbers from `n` on are used. Only a loop can be continued. -/
structure LaterTarget (n : Nat) (t u : Target) : Prop where
  same : u = { t with breakTo := u.breakTo, continueTo := u.continueTo }
  breakTo : LaterLabel n t.breakTo u.breakTo
  continueTo : LaterLabel n t.continueTo u.continueTo
  isLoop : t.isLoop = false → u.continueTo = t.continueTo

abbrev Later (n : Nat) : List Target → List Target → Prop := List.Forall₂ (LaterTarget n)

theorem LaterLabel.refl (n : Nat) (r : Option Ref) : LaterLabel n r r := by
  cases r <;> simp [LaterLabel]

theorem LaterLabel.trans {n k : Nat} {a b c : Option Ref} (h : LaterLabel n a b) (hn : n ≤ k)
    (h' : LaterLabel k b c) : LaterLabel n a c := by
  cases a with
  | some r =>
    obtain rfl : b = some r := h
    exact h'
  | none =>
    cases b with
    | some r =>
      obtain rfl : c = some r := h'
      exact h
    | none => exact fun r hr => hn.trans (h' r hr)

theorem LaterTarget.refl (n : Nat) (t : Target) : LaterTarget n t t :=
  ⟨rfl, .refl n _, .refl n _, fun _ => rfl⟩

theorem Later.refl (n : Nat) (T : List Target) : Later n T T :=
  List.forall₂_same.mpr fun t _ => .refl n t

theorem LaterTarget.trans {n k : Nat} {t u v : Target} (h : LaterTarget n t u) (hn : n ≤ k)
    (h' : LaterTarget k u v) : LaterTarget n t v where
  same := by rw [h'.same, h.same]
  breakTo := h.breakTo.trans hn h'.breakTo
  continueTo := h.continueTo.trans hn h'.continueTo
  isLoop ht := by
    rw [h'.isLoop (by rw [h.same, ht]), h.isLoop ht]

theorem Later.trans {n k : Nat} {T U V : List Target} (h : Later n T U) (hn : n ≤ k)
    (h' : Later k U V) : Later n T V := by
  induction h generalizing V with
  | nil =>
    cases h'
    exact .nil
  | cons ht _ ih =>
    cases h' with
    | cons ht' hT' => exact .cons (ht.trans hn ht') (ih hT')

/-- The frame that a target stands for, once all its labels are made. -/
inductive FrameOf : Target → Frame → Prop
  | label {r : Ref} : FrameOf { label := r.name, breakTo := some r } (.label r)
  | loop {loopName breakTo continueTo front} : front.made = breakTo →
      (∀ label, label ≠ "" → (front.isNamed label ↔ loopName = label)) →
      FrameOf { isLoop := true, loopName, breakTo, continueTo } (.loop front continueTo)
  | switch {cases breakTo front refs} : front.made = breakTo →
      (∀ label, label ≠ "" → ((∃ r ∈ refs, r.name = label) ↔ ∃ r, (label, r) ∈ cases)) →
      (∀ label r, (label, r) ∈ cases → r ∈ refs ∧ r.name = label) →
      FrameOf { isSwitch := true, cases, breakTo } (.switch front refs)

abbrev Fits : List Target → List Frame → Prop := List.Forall₂ FrameOf

theorem FrameOf.labels {t : Target} {f : Frame} (h : FrameOf t f) : f.labels = t.labels := by
  cases h <;> simp_all [Frame.labels, Target.labels]

theorem Fits.labels {T : List Target} {F : List Frame} (h : Fits T F) :
    F.flatMap Frame.labels = T.flatMap Target.labels := by
  induction h with
  | nil => rfl
  | cons hf _ ih => simp [hf.labels, ih]

/-- A statement about jumps holds whatever labels the targets still get. -/
def Under (s : State) (P : List Frame → Prop) : Prop :=
  ∀ T F, Later s.nextId s.targets T → Fits T F → P F

/-! ## States -/

/-- The names that can be looked up are the variables in sight, and numbers are used once. -/
structure Inv (s : State) (vars : List Binding) : Prop where
  lookup : ∀ name, s.lookup name = sight vars name
  numbers : ∀ b ∈ vars, b.ref.id < s.nextId
  distinct : (s.targets.flatMap Target.labels).Nodup
  labels : ∀ i ∈ s.targets.flatMap Target.labels, i < s.nextId

/-- Variables are declared in the innermost scope, and targets get labels. -/
structure Step (s t : State) : Prop where
  scopes : t.scopes.tail = s.scopes.tail
  nextId : s.nextId ≤ t.nextId
  targets : Later s.nextId s.targets t.targets

section States

variable {s t u : State} {vars : List Binding}

theorem Step.trans (h : Step s t) (h' : Step t u) : Step s u :=
  ⟨h'.scopes.trans h.scopes, h.nextId.trans h'.nextId, h.targets.trans h.nextId h'.targets⟩

theorem Under.step {P : List Frame → Prop} (hP : Under s P) (h : Step s t) : Under t P :=
  fun T F hT hF => hP T F (h.targets.trans h.nextId hT) hF

theorem Step.of_eq (hs : t.scopes = s.scopes) (ht : t.targets = s.targets) (hn : s.nextId ≤ t.nextId) :
    Step s t where
  scopes := by rw [hs]
  nextId := hn
  targets := by
    rw [ht]
    exact .refl _ _

theorem Step.refl (s : State) : Step s s := .of_eq rfl rfl (Nat.le_refl _)

theorem Inv.of_eq (hi : Inv s vars) (hl : ∀ name, t.lookup name = s.lookup name)
    (ht : t.targets = s.targets) (hn : s.nextId ≤ t.nextId) : Inv t vars where
  lookup name := by rw [hl, hi.lookup]
  numbers b hb := (hi.numbers b hb).trans_le hn
  distinct := by
    rw [ht]
    exact hi.distinct
  labels i hmem := by
    rw [ht] at hmem
    exact (hi.labels i hmem).trans_le hn

end States

/-! ## Rules -/

/-- The numbers in `k` are among those in `l` and those given out between the states. -/
def Given (l k : List Nat) (s t : State) : Prop :=
  k.Subperm (l ++ List.range' s.nextId (t.nextId - s.nextId))

/-- Resolution with the variables in sight and the numbers below `n` used up. It ends in a state with
`I`, and `P` holds of its result under the frames around it. The variables of the result have numbers
from `l` and new ones. -/
def Gives [Numbered α] (n : Nat) (vars : List Binding) (m : ResolveM α) (I : α → State → Prop)
    (P : α → List Frame → Prop) (l : List Nat := []) : Prop :=
  ∀ s, n ≤ s.nextId → Inv s vars →
    Ok m s fun a t => Step s t ∧ I a t ∧ Under t (P a) ∧ Given l (ids a) s t

/-- Resolution that leaves the variables in sight that `A` tells. -/
abbrev Makes [Numbered α] (n : Nat) (vars : List Binding) (m : ResolveM α) (A : α → List Binding)
    (P : α → List Frame → Prop) (l : List Nat := []) : Prop :=
  Gives n vars m (fun a t => Inv t (A a)) P l

/-- Resolution that leaves the variables in sight as they are. -/
abbrev Keeps [Numbered α] (n : Nat) (vars : List Binding) (m : ResolveM α)
    (P : α → List Frame → Prop) (l : List Nat := []) : Prop :=
  Makes n vars m (fun _ => vars) P l

/-- Resolution up to the end of a scope, where only the variables outside matter. -/
abbrev Leaves [Numbered α] (n : Nat) (vars : List Binding) (m : ResolveM α) (A : α → List Binding)
    (outer : List Binding) (P : α → List Frame → Prop) (l : List Nat := []) : Prop :=
  Gives n vars m (fun a t => A a = outer ∧ ∃ vars, Inv t vars) P l

section Given

variable {l k j : List Nat} {s t u : State}

theorem given_of_count (h : ∀ i, k.count i ≤ l.count i) : Given l k s t :=
  (List.subperm_ext_iff.mpr fun i _ => h i).trans (List.sublist_append_left _ _).subperm

theorem Given.trans (h : Given k j s t) (hst : s.nextId ≤ t.nextId) (htu : t.nextId ≤ u.nextId)
    {i : List Nat} (h' : Given (l ++ j) i t u) : Given (l ++ k) i s u := by
  refine List.Subperm.trans h' ?_
  have hsplit : List.range' s.nextId (u.nextId - s.nextId) = List.range' s.nextId
      (t.nextId - s.nextId) ++ List.range' t.nextId (u.nextId - t.nextId) := by
    rw [← Nat.add_sub_of_le hst, Nat.add_sub_cancel_left, List.range'_append_1]
    congr 1
    omega
  rw [hsplit, ← List.append_assoc, List.append_assoc l k]
  refine List.Subperm.append ?_ (.refl _)
  exact (List.Subperm.refl l).append h

theorem Given.weaken (h : Given k j s t) (hk : ∀ i, k.count i ≤ l.count i) : Given l j s t :=
  List.Subperm.trans h ((List.subperm_ext_iff.mpr fun i _ => hk i).append (.refl _))

end Given

section Rules

variable [Numbered α] [Numbered β] {n : Nat} {vars : List Binding} {m : ResolveM α}
  {f : α → ResolveM β} {A : α → List Binding} {B : β → List Binding} {I : α → State → Prop}
  {J : β → State → Prop} {P : α → List Frame → Prop} {R : β → List Frame → Prop} {l k : List Nat}

theorem gives_pure {b : β} (hJ : ∀ s, Inv s vars → J b s) (hl : ∀ i, (ids b).count i ≤ l.count i)
    (h : ∀ F, R b F) : Gives n vars (pure b) J R l :=
  fun s _ hi => ok_pure ⟨.refl s, hJ s hi, fun _ F _ _ => h F, given_of_count hl⟩

theorem makes_return {b : β} (hB : B b = vars) (hl : ∀ i, (ids b).count i ≤ l.count i)
    (h : ∀ F, R b F) : Makes n vars (pure b) B R l :=
  gives_pure (fun _ hi => by rwa [hB]) hl h

theorem makes_pure {b : β} (hl : ∀ i, (ids b).count i ≤ l.count i) (h : ∀ F, R b F) :
    Keeps n vars (pure b) R l :=
  makes_return rfl hl h

theorem leaves_pure {b : β} {outer : List Binding} (hB : B b = outer)
    (hl : ∀ i, (ids b).count i ≤ l.count i) (h : ∀ F, R b F) : Leaves n vars (pure b) B outer R l :=
  gives_pure (fun _ hi => ⟨hB, vars, hi⟩) hl h

/-- What follows may rely on what is known of the result whatever frames are around it. It has the
numbers of the result and those that were set aside. -/
theorem Gives.carry {C : α → Prop} (hm : Gives n vars m (fun a t => C a ∧ Inv t (A a)) P k)
    (hf : ∀ a, C a → Gives n (A a) (f a) J (fun b F => P a F → R b F) (l ++ ids a)) :
    Gives n vars (m >>= f) J R (l ++ k) := by
  intro s hn hi
  refine .bind ((hm s hn hi).mono ?_)
  rintro a t ⟨hst, ⟨ha, ht⟩, hP, hk⟩
  refine (hf a ha t (hn.trans hst.nextId) ht).mono ?_
  rintro b u ⟨htu, hu, hR, hl⟩
  exact ⟨hst.trans htu, hu, fun T F hT hF => hR T F hT hF ((hP.step htu) T F hT hF),
    hk.trans hst.nextId htu.nextId hl⟩

theorem Gives.bind {C : α → Prop} (hm : Gives n vars m (fun a t => C a ∧ Inv t (A a)) P)
    (hf : ∀ a, C a → Gives n (A a) (f a) J (fun b F => P a F → R b F) (l ++ ids a)) :
    Gives n vars (m >>= f) J R l := by
  simpa using hm.carry hf

theorem Makes.carry (hm : Makes n vars m A P k)
    (hf : ∀ a, Gives n (A a) (f a) J (fun b F => P a F → R b F) (l ++ ids a)) :
    Gives n vars (m >>= f) J R (l ++ k) := by
  refine Gives.carry (C := fun _ => True) (fun s hn hi => (hm s hn hi).mono ?_) fun a _ => hf a
  rintro a t ⟨hst, ht, hP⟩
  exact ⟨hst, ⟨trivial, ht⟩, hP⟩

theorem Makes.bind (hm : Makes n vars m A P)
    (hf : ∀ a, Gives n (A a) (f a) J (fun b F => P a F → R b F) (l ++ ids a)) :
    Gives n vars (m >>= f) J R l := by
  simpa using hm.carry hf

theorem Makes.then (hm : Makes n vars m A P l)
    (hf : ∀ a, Gives n (A a) (f a) J (fun b F => P a F → R b F) (ids a)) :
    Gives n vars (m >>= f) J R l := Makes.carry (l := []) hm hf

omit [Numbered α] in
theorem Gives.pure_bind {a : α} (h : Gives n vars (f a) J R l) : Gives n vars (pure a >>= f) J R l :=
  fun s hn hi => .bind (ok_pure (h s hn hi))

theorem Gives.mono {P' : α → List Frame → Prop} (h : Gives n vars m I P l)
    (hP : ∀ a F, P a F → P' a F) : Gives n vars m I P' l := by
  intro s hn hi
  refine (h s hn hi).mono ?_
  rintro a t ⟨hst, ht, hPF, hl⟩
  exact ⟨hst, ht, fun T F hT hF => hP a F (hPF T F hT hF), hl⟩

theorem Gives.weaken (h : Gives n vars m I P k) (hk : ∀ i, k.count i ≤ l.count i) :
    Gives n vars m I P l := by
  intro s hn hi
  refine (h s hn hi).mono ?_
  rintro a t ⟨hst, ht, hPF, hl⟩
  exact ⟨hst, ht, hPF, hl.weaken hk⟩

theorem Gives.into {P' : α → List Frame → Prop} (h : Gives n vars m I P k)
    (hk : ∀ i, k.count i ≤ l.count i) (hP : ∀ a F, P a F → P' a F) : Gives n vars m I P' l :=
  (h.mono hP).weaken hk

theorem Reports.gives (h : Reports m) : Gives n vars m I P l := fun _ _ _ => h.ok

theorem Gives.unless {c : Prop} [Decidable c] {k : ResolveM Unit} {rest : Unit → ResolveM β}
    (hk : c → Reports k) (h : ¬c → Gives n vars (rest ()) J R l) :
    Gives n vars (if c then k >>= rest else rest ()) J R l := by
  split
  · exact (hk ‹_›).bind.gives
  · exact h ‹_›

theorem makes_get : Keeps n vars get fun _ _ => True :=
  fun s _ hi => ok_get ⟨.refl s, hi, fun _ _ _ _ => trivial, given_of_count (by simp)⟩

theorem makes_read {g : State → β} (hl : ∀ s i, (ids (g s)).count i ≤ 0)
    (h : ∀ s, Inv s vars → ∀ F, R (g s) F) :
    Keeps n vars (get >>= fun s => pure (g s)) R :=
  fun s _ hi => .bind (ok_get (ok_pure ⟨.refl s, hi, fun _ F _ _ => h s hi F, given_of_count (hl s)⟩))

theorem makes_modify {g : State → State} (hs : ∀ s, (g s).scopes = s.scopes)
    (ht : ∀ s, (g s).targets = s.targets) (hn : ∀ s, (g s).nextId = s.nextId) :
    Keeps n vars (modify g) fun _ _ => True :=
  fun s _ hi => ok_modify ⟨.of_eq (hs s) (ht s) (hn s).ge,
    hi.of_eq (fun name => by rw [State.lookup, State.lookup, hs]) (ht s) (hn s).ge,
    fun _ _ _ _ => trivial, given_of_count (by simp)⟩

theorem Gives.fresh {k : Nat → ResolveM β}
    (h : ∀ id, n ≤ id → (∀ b ∈ vars, b.ref.id ≠ id) → Gives (id + 1) vars (k id) J R (l ++ [id])) :
    Gives n vars (freshId >>= k) J R l := by
  intro s hn hi
  refine .bind (ok_freshId ?_)
  have hle : s.nextId ≤ s.nextId + 1 := Nat.le_succ _
  have hi' : Inv { s with nextId := s.nextId + 1 } vars := hi.of_eq (fun _ => rfl) rfl hle
  refine (h s.nextId hn (fun b hb => (hi.numbers b hb).ne) _ (Nat.le_refl _) hi').mono ?_
  rintro b t ⟨hst, ht, hR, hl⟩
  have hnext : Step s { s with nextId := s.nextId + 1 } := .of_eq rfl rfl hle
  have hgiven : Given [] [s.nextId] s { s with nextId := s.nextId + 1 } := by simp [Given]
  exact ⟨hnext.trans hst, ht, hR, by simpa using hgiven.trans hle hst.nextId hl⟩

theorem Gives.node {k : Nat → ResolveM β} (h : ∀ id, Gives (id + 1) vars (k id) J R l) :
    Gives n vars (freshId >>= k) J R l :=
  .fresh fun id _ _ => (h id).weaken (by simp)

theorem lookup_addBinding (b : Binding) (scopes : List (List Binding)) (name : String)
    (h : (scopes.headD []).any (·.ref.name = b.ref.name) = false) :
    (addBinding b scopes).findSome? (fun scope => scope.find? (·.ref.name = name)) =
      if b.ref.name = name then some b
      else scopes.findSome? fun scope => scope.find? (·.ref.name = name) := by
  have hnone (scope : List Binding) (hs : scope.any (·.ref.name = b.ref.name) = false)
      (hname : b.ref.name = name) : scope.find? (·.ref.name = name) = none := by
    subst hname
    simpa [List.find?_eq_none] using hs
  cases scopes with
  | nil => by_cases hname : b.ref.name = name <;> simp [addBinding, hname]
  | cons scope rest =>
    simp only [List.headD_cons] at h
    by_cases hname : b.ref.name = name
    · simp [addBinding, List.find?_append, hnone scope h hname, hname]
    · simp only [addBinding, List.findSome?_cons, List.find?_append, List.find?_singleton, hname]
      simp

theorem makes_declare (d : Tree.Declaration) (h : d.id < n) :
    Makes n vars (declare d) (fun _ => binding d :: vars) fun _ _ => True := by
  intro s hn hi
  refine .bind (ok_get ?_)
  split
  · exact (reports_reject _ _).ok
  · rename_i hnew
    have hlookup (name : String) := lookup_addBinding (binding d) s.scopes name (by
      rw [Bool.not_eq_true] at hnew
      exact hnew)
    refine ok_set ⟨⟨?_, Nat.le_refl _, .refl _ _⟩, ⟨fun name => ?_, ?_, hi.distinct, hi.labels⟩,
      fun _ _ _ _ => trivial, given_of_count (by simp)⟩
    · cases hs : s.scopes <;> simp [addBinding]
    · refine (hlookup name).trans ?_
      rw [sight, List.find?_cons, ← sight, ← hi.lookup name]
      by_cases hname : (binding d).ref.name = name <;> simp [hname, State.lookup]
    · intro b hb
      rcases List.mem_cons.mp hb with rfl | hb
      · exact h.trans_le hn
      · exact hi.numbers b hb

theorem Makes.leaves (h : Makes n vars m A P l) : Leaves n vars m (fun _ => vars) vars P l := by
  intro s hn hi
  refine (h s hn hi).mono ?_
  rintro a t ⟨hst, ht, hP⟩
  exact ⟨hst, ⟨rfl, _, ht⟩, hP⟩

theorem Leaves.inScope (h : Leaves n vars m A vars P l) : Makes n vars (inScope m) A P l := by
  intro s hn hi
  have hpush : Inv { s with scopes := [] :: s.scopes } vars :=
    hi.of_eq (fun _ => rfl) rfl (Nat.le_refl _)
  refine .bind (ok_modify (.bind ((h { s with scopes := [] :: s.scopes } hn hpush).mono ?_)))
  rintro a t ⟨hst, ⟨ha, _, ht⟩, hP⟩
  have hscopes : t.scopes.tail = s.scopes := hst.scopes
  refine .bind (ok_modify (ok_pure ⟨⟨?_, hst.nextId, hst.targets⟩, ?_, hP⟩))
  · rw [hscopes]
  · beta_reduce
    rw [ha]
    exact
      { lookup := fun name => by rw [← hi.lookup name, State.lookup, State.lookup, hscopes]
        numbers := fun b hb => (hi.numbers b hb).trans_le hst.nextId
        distinct := ht.distinct
        labels := ht.labels }

/-- No frame outside is seen from inside a function, and none is changed. -/
theorem Leaves.enclosed (h : Leaves n vars m (fun _ => vars) vars P l) :
    Keeps n vars (enclosed m) (fun a _ => P a []) l := by
  intro s hn hi
  refine .bind (ok_get (.bind (ok_modify ?_)))
  have hnone : Inv { s with targets := [] } vars := ⟨hi.lookup, hi.numbers, by simp, by simp⟩
  refine .bind ((h.inScope { s with targets := [] } hn hnone).mono ?_)
  rintro a t ⟨hst, ht, hP, hl⟩
  have htargets : t.targets = [] := by
    have hlater := hst.targets
    simpa using hlater
  refine .bind (ok_modify (ok_pure ⟨⟨hst.scopes, hst.nextId, .refl _ _⟩, ?_, fun _ _ _ _ => ?_, hl⟩))
  · exact
      { lookup := ht.lookup
        numbers := ht.numbers
        distinct := hi.distinct
        labels := fun i hmem => (hi.labels i hmem).trans_le hst.nextId }
  · refine hP [] [] ?_ .nil
    rw [htargets]
    exact .nil

end Rules

end Flowgraph.Resolve
