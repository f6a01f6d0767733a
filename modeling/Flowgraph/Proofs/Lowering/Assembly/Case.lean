import Flowgraph.Proofs.Lowering.Assembly.Jump

/-! # Cases

Joins in front of the cases of a switch are made when they are first asked for. They
are in hand until the switch is done, and their marks are reserved when it begins. A
continue jumps to the join of its case, and a body that does not end runs into the join
of the next one. Only continues can lead back from a case to an earlier one.
-/

namespace Flowgraph.Lowering.Assembly

open Flowgraph.Graph (Fragment Op)
open Flowgraph.Tree (SwitchCase)

variable {o : Bool} {env : Env} {s s' : State} {γ γ' : Notes} {P : Kept} {L : List Fragment}
  {m : LowerM Fragment} {a : Note} {p q : Mark} {R : Nat → Mark} {f f' : Fragment} {i index : Nat}
  {t : SwitchTargets} {fs : Finalizers}

/-! ## Joins in front of cases -/

theorem forall₂_getElem? {α β : Type} {S : α → β → Prop} {xs : List α} {ys : List β} {k : Nat}
    {x : α} (h : List.Forall₂ S xs ys) (hx : xs[k]? = some x) : ∃ y, ys[k]? = some y ∧ S x y := by
  induction h generalizing k with
  | nil => simp at hx
  | @cons a b xs ys hab _ ih =>
    cases k with
    | zero =>
      obtain rfl := Option.some.inj hx
      exact ⟨b, rfl, hab⟩
    | succ k => exact ih hx

theorem forall₂_modify {α β : Type} {S : α → β → Prop} {xs : List α} {ys : List β} {k : Nat}
    {y : β} {g : α → α} (h : List.Forall₂ S xs ys) (hy : ys[k]? = some y)
    (hg : ∀ x, S x y → S (g x) y) : List.Forall₂ S (xs.modify k g) ys := by
  induction h generalizing k with
  | nil => simp at hy
  | @cons a b xs ys hab hrest ih =>
    cases k with
    | zero =>
      obtain rfl := Option.some.inj hy
      exact .cons (hg a hab) hrest
    | succ k => exact .cons hab (ih hy)

section Reach

variable {ts : List SwitchTargets} {depth : Nat}

theorem destinations_modify (ht : ts[depth]? = some t) (j : Nat) :
    ((ts.modify depth fun t => { t with destinations := (index, j) :: t.destinations }).flatMap
      fun t => t.destinations.map (·.2)).Perm
      (j :: ts.flatMap fun t => t.destinations.map (·.2)) := by
  induction ts generalizing depth with
  | nil => cases ht
  | cons u ts ih =>
    cases depth with
    | zero => simp
    | succ depth =>
      simp only [List.modify_succ_cons, List.flatMap_cons]
      exact ((ih ht).append_left _).trans List.perm_middle

theorem later_modify (ht : ts[depth]? = some t) (hj : t.joinOf index = none) (j : Nat) :
    List.Forall₂ (fun t t' : SwitchTargets => t'.cases = t.cases ∧
      ∀ k j, t.joinOf k = some j → t'.joinOf k = some j) ts
      (ts.modify depth fun t => { t with destinations := (index, j) :: t.destinations }) := by
  induction ts generalizing depth with
  | nil => cases ht
  | cons u ts ih =>
    cases depth with
    | zero =>
      obtain rfl : u = t := by simpa using ht
      refine .cons ⟨rfl, fun k j' hk => ?_⟩ (List.forall₂_same.mpr fun _ _ => ⟨rfl, fun _ _ h => h⟩)
      have hne : index ≠ k := by
        rintro rfl
        rw [hj] at hk
        cases hk
      simpa [SwitchTargets.joinOf, hne] using hk
    | succ depth => exact .cons ⟨rfl, fun _ _ h => h⟩ (ih ht)

end Reach

theorem Later.head (h : Later s s') (ht : s.switches.head? = some t) :
    ∃ u, s'.switches.head? = some u ∧ ∀ k j, t.joinOf k = some j → u.joinOf k = some j := by
  have hall := h.switches
  cases hs : s.switches with
  | nil => simp [hs] at ht
  | cons v ts =>
    obtain rfl : v = t := by simpa [hs] using ht
    rw [hs] at hall
    obtain ⟨u, ts', hR, -, hs'⟩ := List.forall₂_cons_left_iff.mp hall
    exact ⟨u, by rw [hs']; rfl, hR.2⟩

/-- From `s` on, a join was asked for. It is where the mark for it was reserved. -/
structure Asked (ordered : Bool) (s : State) (γ : Notes) (P : Kept) (L : List Fragment)
    (depth index i : Nat) (s' : State) (γ' : Notes) : Prop extends Pass s γ s' γ' where
  ready : Ready ordered s' γ' P L
  placed : ∃ R, P.cases[depth]? = some R ∧ Placed Op.isJoin s'.code γ' (R index) i
  known : ∃ t t', s.switches[depth]? = some t ∧ s'.switches[depth]? = some t' ∧
    t'.cases = t.cases ∧ t'.joinOf index = some i

theorem asked_caseDestination (depth index : Nat) (h : Ready o s γ P L) :
    Ends env (caseDestination depth index) s fun i s' =>
      ∃ γ', Asked o s γ P L depth index i s' γ' := by
  unfold caseDestination
  rw [ends_bind, ends_get]
  cases ht : s.switches[depth]? with
  | none => exact ends_bind.mpr ends_throw
  | some t =>
    rw [show required (some t) = (pure t : LowerM SwitchTargets) from rfl, pure_bind]
    obtain ⟨R, hR, hreserved⟩ := forall₂_getElem? h.inv.regions.cases ht
    cases hj : t.destinations.find? (·.1 = index) with
    | some d =>
      obtain rfl : d.1 = index := by simpa using List.find?_some hj
      have hplaced := (hreserved d.1).placed d.2 (List.mem_of_find?_eq_some hj)
      refine ends_pure.mpr ⟨γ, .refl s γ, h, ⟨R, hR, hplaced⟩, t, t, ht, ht, rfl, ?_⟩
      rw [SwitchTargets.joinOf, hj, Option.map_some]
    | none =>
      refine (joined_emitBlock h (hreserved index).region (hreserved index).isRegion).bind ?_
      rintro join s1 ⟨γ1, h1, ha⟩
      rw [ends_bind, ends_modify, ends_pure]
      have ht1 := ht
      rw [← switches_of_around ha] at ht1
      let t' : SwitchTargets := { t with destinations := (index, join) :: t.destinations }
      have hi1 := h1.ready.inv
      refine ⟨γ1, h1.toPass.trans
          ⟨⟨.refl _ _, le_rfl⟩, ⟨(Later.refl s1).breakables, ?_⟩, .of_eq rfl rfl⟩,
        h1.ready.known { hi1 with regions := { hi1.regions with cases := ?_ } } rfl ?_,
        ⟨R, hR, h1.placed⟩, t, t', ht, ?_, rfl, ?_⟩
      · exact later_modify ht1 (by rw [SwitchTargets.joinOf, hj, Option.map_none]) join
      · refine forall₂_modify h1.ready.inv.regions.cases hR fun t ht k =>
          ⟨(ht k).region, (ht k).isRegion, ?_⟩
        rintro j (_ | ⟨_, hj⟩)
        · exact h1.placed
        · exact (ht k).placed j hj
      · exact ((destinations_modify ht1 join).append_left _).trans List.perm_middle
      · simp [ht1, t']
      · simp [SwitchTargets.joinOf, t']

/-! ## Continues -/

theorem Built.note {id : Nat} (h : Built o s γ P L a q f s' γ') (hf : f.entry = some i)
    (hnew : s.code.size ≤ i) (hi : Heads s' i id) :
    Built o s γ P L a q f { s' with sources := { s'.sources with
      continues := (f.entry, id) :: s'.sources.continues } } γ' where
  step := { h.step with }
  later := ⟨h.later.breakables, h.later.switches⟩
  recorded := by
    refine ⟨h.recorded.kept, h.recorded.switches, ?_⟩
    rintro k' (_ | ⟨_, hk'⟩)
    · exact .inr ⟨i, hf, hnew, (h.spans.entry i hf).1, .inl hi⟩
    · exact h.recorded.continues k' hk'
  ready := ⟨{ h.ready.inv with regions := { h.ready.inv.regions with } }, h.ready.empty⟩
  spans := h.spans

theorem ends_gotoJoin {origin : Option Graph.Origin} :
    Ends env (gotoJoin i origin) s fun f s' => f.entry = some s.code.size ∧
      s'.code.op s.code.size = .goto i := by
  unfold gotoJoin
  rw [ends_bind, ends_perform]
  exact ends_pure.mpr ⟨rfl, Graph.Code.op_push_size⟩

theorem lowers_continueTo (place : Position) (target : Tree.Ref) (hfs : ∀ z ∈ fs, Finalizes o z) :
    Lowers o true (continueTo place target fs) := by
  intro env s γ P L p q h room
  unfold continueTo
  rw [ends_bind, ends_get]
  dsimp only
  split
  · exact ends_malformed
  · rename_i t depth index hfound
    obtain ⟨⟨t', depth'⟩, hmem, hfind⟩ := List.exists_of_findSome?_eq_some hfound
    obtain ⟨index', hfindex, heq⟩ := Option.map_eq_some_iff.mp hfind
    obtain ⟨rfl, rfl, rfl⟩ : t' = t ∧ depth' = depth ∧ index' = index := by simpa using heq
    have ht : s.switches[depth']? = some t' := List.mk_mem_zipIdx_iff_getElem?.mp hmem
    refine (asked_caseDestination depth' index' h).bind ?_
    rintro join s1 ⟨γ1, h1⟩
    obtain ⟨R, -, hplaced⟩ := h1.placed
    obtain ⟨t0, t1, ht0, ht1, hcases, hjoin⟩ := h1.known
    obtain rfl : t' = t0 := Option.some.inj (ht.symm.trans ht0)
    refine (built_jumpTo hfs h1.ready room fun s2 γ2 f r _ h2 => ?_).mono ?_
    · refine (Ends.and (built_gotoJoin _ h2.ready ((hplaced.step h2.step).continued r) q)
        ends_gotoJoin).bind ?_
      rintro g s3 ⟨⟨γ3, h3⟩, hi, hop⟩
      have hlater := h2.later.trans h3.later
      obtain ⟨t3, ht3, hcases3, hjoins3⟩ := hlater.mem_switches (List.mem_of_getElem? ht1)
      rw [ends_bind, note, ends_modify, ends_pure]
      refine ⟨γ3, h3.note hi le_rfl ⟨join, t3, index', hop, ht3, ?_, hjoins3 index' join hjoin⟩⟩
      rw [find_congr (hcases3.trans hcases)]
      exact hfindex
    · rintro f s2 ⟨γ2, h2⟩
      exact ⟨γ2, h2.after h1.toPass⟩

/-! ## Bodies -/

/-- Behind `x`, control jumps to a case of the innermost switch. -/
def RunsInto (s : State) (x index : Nat) : Prop :=
  ∃ i j t, s.code.Linked x i ∧ s.code.op i = .goto j ∧ s.switches.head? = some t ∧
    t.joinOf index = some j

theorem RunsInto.later {x : Nat} (h : RunsInto s x index) (hp : Pass s γ s' γ') :
    RunsInto s' x index := by
  obtain ⟨i, j, t, hlink, hop, ht, hj⟩ := h
  obtain ⟨u, hu, hjoins⟩ := hp.later.head ht
  exact ⟨i, j, u, hp.step.links x i hlink, hp.step.extends.op_eq hop rfl, hu, hjoins index j hj⟩

/-- The cases of a further switch reserve their marks, those of even index in `R`. -/
def Kept.switch (P : Kept) (R : Nat → Mark) : Kept :=
  { P with cases := (fun k => R (2 * k)) :: P.cases }

/-- The marks of the cases are in order between `p` and `q`. -/
structure Ordered (ordered : Bool) (env : Env) (P : Kept) (p : Mark) (R : Nat → Mark) (q : Mark) :
    Prop where
  first : Room ordered true env P p (R 0)
  room : ∀ j k, j < k → Room ordered true env P (R j) (R k)
  last : ∀ k, Room ordered true env P (R k) q

/-- The body of a case comes behind the join in front of it. -/
structure Body (ordered : Bool) (s : State) (γ : Notes) (R : Nat → Mark) (index : Nat) (f : Fragment) :
    Prop where
  spans : Spans ordered s.code γ (R (2 * index + 1)) f (R (2 * (index + 1)))
  nonempty : f.isEmpty = false

/-- From `s` on, the bodies of cases were made. -/
structure Bodied (ordered : Bool) (s : State) (γ : Notes) (P : Kept) (L : List Fragment)
    (R : Nat → Mark) (index : Nat) (cases : List SwitchCase) (bodies : List (Fragment × Fragment))
    (s' : State) (γ' : Notes) : Prop extends Pass s γ s' γ' where
  ready : Ready ordered s' γ' P (bodies.map (·.2) ++ L)
  length : bodies.length = cases.length
  each : ∀ i b, bodies[i]? = some b → Body ordered s' γ' R (index + i) b.2 ∧ b.2.entry = b.1.entry
  joins : ∀ t ∈ s'.switches.head?, ∀ i c, cases[i]? = some c → 1 < c.tests.length →
    (t.joinOf (index + i)).isSome
  falls : ∀ i b c x, bodies[i]? = some b → cases[i]? = some c → c.isDefault = false →
    i + 1 < cases.length → b.1.exit = some x → RunsInto s' x (index + i + 1)
  last : ∀ b, bodies.getLast? = some b → b.2 = b.1

theorem nonempty_null : Ends env (inOrder [nullConstant, drop]) s fun f _ => f.isEmpty = false := by
  unfold nullConstant newConstant constant inOrder chain
  rw [ends_bind, ends_bind]
  refine ends_evaluating fun v _ => ?_
  rw [ends_define, ends_bind, ends_append]
  refine entry_chain.mono fun g _ hg => ?_
  rw [Fragment.isEmpty, hg rfl]
  rfl

theorem Inv.loose {x : Nat} (h : Inv o s γ P L) (hf : f ∈ L) (hne : f.isEmpty = false)
    (hx : f.exit = some x) : Loose s.code f x :=
  ⟨hne, hx, (h.hands.exit f hf x hx).1, (h.hands.exit f hf x hx).2⟩

theorem made_jump_linked (hi : Inv o s γ P (f :: L)) (sp : Spans o s.code γ a f ⟨values s, p⟩)
    (h : Ahead Op.isJoin s.code γ ⟨values s, p⟩ false i) (hf : f.isEmpty = false) (q : Mark) :
    Ends env (chain f [gotoJoin i]) s fun g s' => (∃ γ', Made o s γ P L a 0 0 q g s' γ') ∧
      g.entry = f.entry ∧
      ∀ x, f.exit = some x → ∃ k, s'.code.Linked x k ∧ s'.code.op k = .goto i := by
  refine (made_jump hi sp h q).and (Ends.and (entry_chain.mono fun _ _ he => he hf) ?_)
  exact ends_forall_exit fun x hx => ends_jump (hi.loose List.mem_cons_self hf hx)

theorem built_fallThrough (h : Ready o s γ (P.switch R) (f :: L)) (sp : Spans o s.code γ a f p)
    (hp : p.rank < (R (2 * index)).rank) (hf : f.isEmpty = false) (q : Mark) :
    Ends env (chain f [do gotoJoin (← caseDestination 0 index)]) s fun g s' =>
      (∃ γ', Built o s γ (P.switch R) L a q g s' γ') ∧ g.entry = f.entry ∧
        ∀ x, f.exit = some x → RunsInto s' x index := by
  unfold chain
  rw [bind_assoc]
  refine (asked_caseDestination 0 index h).bind ?_
  rintro join s1 ⟨γ1, h1⟩
  obtain ⟨_, ⟨⟩, hplaced⟩ := h1.placed
  obtain ⟨-, t, -, ht, -, hjoin⟩ := h1.known
  rw [← List.head?_eq_getElem?] at ht
  have hempty := h1.ready.empty
  have hjump : Ends env (chain f [gotoJoin join]) s1 _ :=
    made_jump_linked (p := p) (L := L ++ pending s1) h1.ready.inv
      (by rw [hempty]; exact sp.step h1.step) (by rw [hempty]; exact hplaced.before hp) hf q
  refine Ends.mono hjump ?_
  rintro g s2 ⟨⟨γ2, h2⟩, hentry, hlink⟩
  have h2 := Built.of_made h1.ready.forget h2
  refine ⟨⟨γ2, h2.after h1.toPass⟩, hentry, fun x hx => ?_⟩
  obtain ⟨i, hi, hop⟩ := hlink x hx
  obtain ⟨u, hu, hjoins⟩ := h2.later.head ht
  exact ⟨i, join, u, hi, hop, hu, hjoins index join hjoin⟩

theorem bodied_caseBodies {cases : List (SwitchCase × LowerM Fragment)}
    (hcases : ∀ c ∈ cases, Lowers o true c.2) (h : Ready o s γ (P.switch R) L)
    (ho : Ordered o env (P.switch R) p R q) :
    Ends env (caseBodies index cases) s fun bodies s' =>
      ∃ γ', Bodied o s γ (P.switch R) L R index (cases.map (·.1)) bodies s' γ' := by
  induction cases generalizing s γ L index with
  | nil => exact ends_pure.mpr ⟨γ, .refl s γ, h, rfl, by simp, by simp, by simp, by simp⟩
  | cons c rest ih =>
    obtain ⟨c, code⟩ := c
    unfold caseBodies
    obtain ⟨r, room1, room2⟩ := (ho.room (2 * index + 1) (2 * (index + 1)) (by omega)).split
    -- What is known of a body once it is made.
    let Whole (raw body : Fragment) (t : State) : Prop :=
      (∃ γ', Built o s γ (P.switch R) L (R (2 * index + 1)) (R (2 * (index + 1))) body t γ') ∧
        body.entry = raw.entry ∧ raw.isEmpty = false ∧
        (c.isDefault = false → rest ≠ [] → ∀ x, raw.exit = some x → RunsInto t x (index + 1)) ∧
        (rest = [] → body = raw)
    -- The join in front of the case is there once it has several tests.
    have hrest : ∀ raw body t, Whole raw body t →
        (1 < c.tests.length → ∃ u i, t.switches.head? = some u ∧ u.joinOf index = some i) →
        Ends env (do return (raw, body) :: (← caseBodies (index + 1) rest)) t fun bodies s' =>
          ∃ γ', Bodied o s γ (P.switch R) L R index (c :: rest.map (·.1)) bodies s' γ' := by
      rintro raw body s1 ⟨⟨γ1, h1⟩, hentry, hraw, hfalls, hlast⟩ hjoin
      refine (ih (fun c hc => hcases c (List.mem_cons_of_mem _ hc)) h1.ready).bind ?_
      rintro bodies s2 ⟨γ2, h2⟩
      refine ends_pure.mpr ⟨γ2, h1.toPass.trans h2.toPass, h2.ready.perm List.perm_middle,
        congrArg (· + 1) h2.length, ?_, ?_, ?_, ?_⟩
      · rintro (_ | i) b hb
        · obtain rfl : (raw, body) = b := by simpa using hb
          exact ⟨⟨h1.spans.step h2.step, by rwa [Fragment.isEmpty, hentry]⟩, hentry⟩
        · have := h2.each i b hb
          rwa [Nat.add_assoc, Nat.add_comm 1 i] at this
      · rintro u hu (_ | i) d hd hlen
        · obtain rfl : c = d := by simpa using hd
          obtain ⟨v, j, hv, hj⟩ := hjoin hlen
          obtain ⟨u', hu', hjoins⟩ := h2.later.head hv
          obtain rfl : u' = u := Option.some.inj (hu'.symm.trans hu)
          exact Option.isSome_iff_exists.mpr ⟨j, hjoins index j hj⟩
        · have := h2.joins u hu i d hd hlen
          rwa [Nat.add_assoc, Nat.add_comm 1 i] at this
      · rintro (_ | i) b d x hb hd hdefault hlen hx
        · obtain rfl : c = d := by simpa using hd
          obtain rfl : (raw, body) = b := by simpa using hb
          have hne : rest ≠ [] := by
            rintro rfl
            simp at hlen
          exact (hfalls hdefault hne x hx).later h2.toPass
        · have := h2.falls i b d x hb hd hdefault (by simpa using hlen) hx
          rwa [Nat.add_assoc index, Nat.add_comm 1 i] at this
      · intro b hb
        cases bodies with
        | nil =>
          obtain rfl : (raw, body) = b := by simpa using hb
          exact hlast (by simpa using h2.length.symm)
        | cons b' bodies =>
          rw [List.getLast?_cons_cons] at hb
          exact h2.last b hb
    have htests : ∀ raw body t, Whole raw body t → Ends env (do
        if 1 < c.tests.length then
          let _ ← caseDestination 0 index
        return (raw, body) :: (← caseBodies (index + 1) rest)) t fun bodies s' =>
          ∃ γ', Bodied o s γ (P.switch R) L R index (c :: rest.map (·.1)) bodies s' γ' := by
      rintro raw body s1 hwhole
      dsimp only
      split
      · obtain ⟨⟨γ1, h1⟩, hentry, hraw, hfalls, hlast⟩ := hwhole
        refine (asked_caseDestination 0 index h1.ready).bind ?_
        rintro j s2 ⟨γ2, h2⟩
        obtain ⟨-, u, -, hu, -, hj⟩ := h2.known
        rw [← List.head?_eq_getElem?] at hu
        refine hrest raw body s2 ⟨⟨γ2, h1.toPass.trans h2.toPass, h2.ready, h1.spans.step h2.step⟩,
          hentry, hraw, fun hd hne x hx => ?_, hlast⟩ fun _ => ⟨u, j, hu, hj⟩
        exact (hfalls hd hne x hx).later h2.toPass
      · exact hrest raw body s1 hwhole fun hlen => absurd hlen ‹_›
    refine (hcases (c, code) List.mem_cons_self env s γ _ L _ r h room1).bind ?_
    rintro body s1 ⟨γ1, h1⟩
    refine Ends.join (M := fun body t => body.isEmpty = false ∧
      ∃ γ', Built o s γ (P.switch R) L (R (2 * index + 1)) r body t γ') (fun _ => ?_) (fun hne => ?_) ?_
    · have hnull : Lowers o true (inOrder [nullConstant, drop]) := Makes.lowers inferInstance
      refine (Ends.and (hnull env s1 γ1 _ L _ r h1.ready.forget room1) nonempty_null).mono ?_
      rintro f s2 ⟨⟨γ2, h2⟩, hf⟩
      exact ⟨hf, γ2, h2.after h1.toPass⟩
    · exact ends_pure.mpr ⟨by simpa using hne, γ1, h1⟩
    · rintro raw s2 ⟨hraw, γ2, h2⟩
      refine Ends.join (M := Whole raw) (fun hc => ?_) (fun hc => ?_) (htests raw)
      · refine (built_fallThrough h2.ready h2.spans room2.lt.2 hraw (R (2 * (index + 1)))).mono ?_
        rintro g s3 ⟨⟨γ3, h3⟩, hentry, hfalls⟩
        exact ⟨⟨γ3, h3.after h2.toPass⟩, hentry, hraw, fun _ _ => hfalls, fun hnil => by
          simp [hnil] at hc⟩
      · refine ends_pure.mpr ⟨⟨γ2, h2.until room2.le⟩, rfl, hraw, fun hd hne x hx => absurd ?_ hc,
          fun _ => rfl⟩
        simp [hd, hne, Fragment.isOpen, hx]

end Flowgraph.Lowering.Assembly
