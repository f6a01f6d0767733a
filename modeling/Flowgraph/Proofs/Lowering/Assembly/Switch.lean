import Flowgraph.Proofs.Lowering.Assembly.Case

/-! # Switches

The body of a case is put into place once: behind the join in front of it, or behind
its only test. After the bodies are made, the joins of the switch are taken in hand.
The tests are made in order, and each leads to the case it belongs to. They come before
all cases, and what goes on after the switch comes after all of them.
-/

namespace Flowgraph.Lowering.Assembly

open Flowgraph.Graph (Code Fragment Op otherwise orderedTests)
open Flowgraph.Tree (SwitchCase)
open Scoping (Variable)

variable {o : Bool} {env : Env} {s s' s'' : State} {γ γ' γ'' : Notes} {P : Kept} {L : List Fragment}
  {m : LowerM Fragment} {a a' z : Note} {p q r e : Mark} {R : Nat → Mark} {f f' : Fragment}
  {i index : Nat} {t : SwitchTargets} {subject : Variable} {start : Nat → Option Nat}

theorem append_code {c : Code} {g : Fragment} (hexit : f.exit = f'.exit)
    (hf : f.isEmpty = false) (hf' : f'.isEmpty = false) :
    (f.append g c).2 = (f'.append g c).2 := by
  obtain ⟨_ | e, x⟩ := f
  · cases hf
  obtain ⟨_ | e', x'⟩ := f'
  · cases hf'
  obtain rfl : x = x' := hexit
  cases x <;> cases hg : g.entry <;> simp [Fragment.append, hg]

theorem append_single {c : Code} (hf : f.isEmpty = false) :
    ((Fragment.single i).append f c).1 = ⟨some i, f.exit⟩ := by
  obtain ⟨_ | e, x⟩ := f
  · cases hf
  · rfl

theorem ends_chain_congr {Q : State → Prop} (hexit : f.exit = f'.exit) (hf : f.isEmpty = false)
    (hf' : f'.isEmpty = false) (h : Ends env (chain f [m]) s fun _ s' => Q s') :
    Ends env (chain f' [m]) s fun _ s' => Q s' := by
  unfold chain at h ⊢
  rw [ends_bind] at h ⊢
  refine h.mono fun g s1 hg => ?_
  rw [ends_bind, ends_append] at hg ⊢
  unfold chain at hg ⊢
  rw [ends_pure] at hg ⊢
  rwa [append_code hexit hf hf'] at hg

/-- The joins in front of the cases from an index on. -/
def remaining (t : SwitchTargets) (index : Nat) : List Fragment :=
  (t.destinations.filter (index ≤ ·.1)).map fun p => .single p.2

theorem remaining_sublist (t : SwitchTargets) (index : Nat) :
    (remaining t (index + 1)).Sublist (remaining t index) := by
  refine (List.monotone_filter_right _ fun q hq => ?_).map _
  rw [decide_eq_true_eq] at hq ⊢
  omega

theorem remaining_succ {j : Nat} (hj : t.joinOf index = some j) :
    (.single j :: remaining t (index + 1)).Subperm (remaining t index) := by
  obtain ⟨p, hp, rfl⟩ := Option.map_eq_some_iff.mp hj
  have hindex : p.1 = index := by simpa using List.find?_some hp
  let ds := t.destinations.filter (index ≤ ·.1)
  have hsplit := List.filter_append_perm (fun q : Nat × Nat => decide (q.1 = index)) ds
  have hlater : ds.filter (fun q => !decide (q.1 = index)) =
      t.destinations.filter (index + 1 ≤ ·.1) := by
    rw [List.filter_filter]
    refine List.filter_congr fun q _ => ?_
    rw [Bool.eq_iff_iff]
    simp
    omega
  have hmem : p ∈ ds.filter fun q => decide (q.1 = index) := by
    simp [ds, hindex, List.mem_of_find?_eq_some hp]
  rw [hlater] at hsplit
  obtain ⟨l, hl, hsub⟩ :=
    ((List.singleton_sublist.mpr hmem).append_right _).subperm.trans hsplit.subperm
  exact ⟨l.map fun p => .single p.2, hl.map _, hsub.map _⟩

/-! ## Tests -/

/-- No call is the last instruction of the fragment. -/
structure Steady (c : Code) (f : Fragment) : Prop where
  nonempty : f.isEmpty = false
  quiet : ∀ x, f.exit = some x → (c.op x).isQuiet = true

/-- The code behind `current` makes tests. Where they fail, the end of `f` is open. -/
structure Probes (subject : Variable) (start : Nat → Option Nat) (c : Code) (current : Fragment)
    (tests : List (Nat × Tree.Expr)) (c' : Code) (f : Fragment) : Prop where
  entry : f.entry = current.entry
  steady : Steady c' f
  asks : ∀ x, current.exit = some x → ∃ y, f.exit = some y ∧
    c'.Asks subject start c.size tests x (some y)

theorem Steady.step (h : Steady s.code f) (sp : Spans o s.code γ a f z) (st : Step s γ s' γ') :
    Steady s'.code f :=
  ⟨h.nonempty, fun x hx => by rw [st.ops x (sp.exit x hx).1]; exact h.quiet x hx⟩

theorem Probes.refl {c : Code} {current : Fragment} (h : Steady c current) :
    Probes subject start c current [] c current :=
  ⟨rfl, h, fun x hx => ⟨x, hx, .of_passes fun answers => .refl c answers x⟩⟩

theorem Probes.trans {c c1 c2 : Code} {current : Fragment} {tests tests' : List (Nat × Tree.Expr)}
    (h : Probes subject start c current tests c1 f) (h' : Probes subject start c1 f tests' c2 f')
    (hc : c.Extends c1) (hc' : c1.Extends c2) :
    Probes subject start c current (tests ++ tests') c2 f' := by
  refine ⟨h'.entry.trans h.entry, h'.steady, fun x hx => ?_⟩
  obtain ⟨y, hy, hasks⟩ := h.asks x hx
  obtain ⟨z, hz, hasks'⟩ := h'.asks y hy
  exact ⟨z, hz, hasks.trans hc' hasks' hc.size⟩

theorem Probes.after {c c1 c2 : Code} {current : Fragment} {tests : List (Nat × Tree.Expr)}
    (h : Probes subject start c1 current tests c2 f) (hc : c.size ≤ c1.size) :
    Probes subject start c current tests c2 f := by
  refine ⟨h.entry, h.steady, fun x hx => ?_⟩
  obtain ⟨y, hy, asked, hnodup, hbound, htests, hchooses⟩ := h.asks x hx
  exact ⟨y, hy, asked, hnodup, fun p hp => ⟨hc.trans (hbound p hp).1, (hbound p hp).2⟩, htests,
    hchooses⟩

/-- From `s` on, one test was made. Both of its sides are open. -/
structure Probed (ordered : Bool) (s : State) (γ : Notes) (P : Kept) (L : List Fragment) (a : Note)
    (q : Mark) (subject : Variable) (test : Tree.Expr) (current : Fragment) (b : Branching)
    (s' : State) (γ' : Notes) : Prop extends Branched ordered s γ P L a 0 q b s' γ' where
  entry : b.code.entry = current.entry
  nonempty : b.code.isEmpty = false
  test : ∀ x, current.exit = some x → ∃ i, s.code.size ≤ i ∧ s'.code.TestAt subject test i ∧
    ∀ answers, s'.code.Passes answers x [i] (if answers i then b.yes else b.no)

theorem probed_test {test : Tree.Expr} {current : Fragment}
    {k : Branching → Fragment → LowerM Fragment} {Q : Fragment → State → Prop}
    (hi : Inv o s γ P (current :: L)) (hv : values s = []) (room : Room o true env P p q)
    (sp : Spans o s.code γ a current p) (hs : Steady s.code current)
    (hk : ∀ b f s' γ', Probed o s γ P L a q subject test current { b with code := f } s' γ' →
      Ends env (k b f) s' Q) :
    Ends env (do
      let f ← chain current [foldedConstant test, pushArgument, loadLocal subject, pushArgument,
        instanceCall Symbols.equalsOperator 2 []]
      let b ← branchIfTrue false
      let f ← append f b.code
      k b f) s Q := by
  obtain ⟨r, room1, room2⟩ := room.split
  have htest : Continues o (fun f => chain f [foldedConstant test, pushArgument, loadLocal subject,
    pushArgument, instanceCall Symbols.equalsOperator 2 []]) 0 1 := inferInstance
  have hcompare : Ends env (chain current [foldedConstant test, pushArgument, loadLocal subject,
      pushArgument, instanceCall Symbols.equalsOperator 2 []]) s _ :=
    ends_forall_exit (f := current) fun x hx =>
      ends_comparison subject test (hi.loose List.mem_cons_self hs.nonempty hx) (hs.quiet x hx)
  refine (Ends.and (htest.made env s γ P L a p r current hi room1 (by rwa [hv]))
    (entry_chain.and hcompare)).bind ?_
  rintro f s1 ⟨⟨γ1, h1⟩, hentry, hcompare⟩
  refine (Ends.and (branched_branchIfTrue h1.inv room2) (ends_branchIfTrue env s1)).bind ?_
  rintro b s2 ⟨⟨γ2, h2⟩, hbranch⟩
  refine (Ends.and (h2.behind h1) ends_append_linked).bind ?_
  rintro f3 s3 ⟨⟨γ3, h3⟩, hentry3, hlink⟩
  have hf : f.isEmpty = false := by
    rw [Fragment.isEmpty, hentry hs.nonempty]
    exact hs.nonempty
  have hf3 : f3.isEmpty = false := by rwa [Fragment.isEmpty, hentry3 hf]
  refine hk b f3 s3 γ3 ⟨h3, (hentry3 hf).trans (hentry hs.nonempty), hf3, fun x hx => ?_⟩
  obtain ⟨i, stack, hcall, hloose, hstack⟩ := hcompare x hx
  have hb := hbranch i stack hstack
  have hcode : b.code.entry = some s1.code.size := by rw [hb.code]
  obtain ⟨hext, hlinked⟩ := hlink i s1.code.size (h2.inv.loose (by simp) hf hloose.exit) hcode
    (h2.code.entry _ hcode).1
  obtain ⟨htest, hpasses⟩ := hcall.test hb h2.step.extends hext hlinked
  exact ⟨i, hcall.new, htest, hpasses⟩

theorem Probed.probes {test : Tree.Expr} {current : Fragment} {b : Branching} {y : Nat}
    (h : Probed o s γ P L a q subject test current b s' γ') (st : Step s' γ' s'' γ'')
    (hstart : start index = some y) (hyes : ∀ answers, s''.code.Passes answers b.yes [] y) :
    Probes subject start s.code current [(index, test)] s''.code (b.code.exitingAt b.no) := by
  refine ⟨h.entry, ⟨h.nonempty, ?_⟩, fun x hx => ⟨b.no, rfl, ?_⟩⟩
  · rintro _ ⟨⟩
    exact Op.isQuiet_of_isTarget (h.no.step st).kind
  · obtain ⟨i, hi, htest, hpasses⟩ := h.test x hx
    refine Code.asks_one (htest.mono st.extends) hi hstart fun answers => ?_
    have hp := (hpasses answers).mono st.extends
    cases hans : answers i
    · simpa [hans] using hp
    · rw [hans] at hp
      exact hp.trans (hyes answers)

/-- From `s` on, a part of the tests was made. The end of the body is still open. -/
structure Tested (ordered : Bool) (s : State) (γ : Notes) (P : Kept) (L : List Fragment) (a : Note)
    (q e : Mark) (body current : Fragment) (s' : State) (γ' : Notes) : Prop
    extends Calm s γ s' γ' where
  inv : Inv ordered s' γ' P (current :: body :: L)
  current : Spans ordered s'.code γ' a current q
  body : ∃ z, Spans ordered s'.code γ' z body e

theorem tested_caseTests {destination : Option Nat} {body current : Fragment}
    {tests : List Tree.Expr} (hi : Inv o s γ P (current :: body :: L)) (hv : values s = [])
    (room : Room o true env P p q)
    (hdest : ∀ join, destination = some join → Ahead Op.isJoin s.code γ q false join)
    (honce : destination = none → tests.length ≤ 1) (hne : body.isEmpty = false)
    (hbody : Spans o s.code γ q body e) (hcurrent : Spans o s.code γ a current p)
    (hs : Steady s.code current) (hstart : start index = destination.or body.entry) :
    Ends env (caseTests subject destination body tests current) s fun f s' =>
      ∃ γ' body', body'.exit = body.exit ∧ body'.isEmpty = false ∧
        Tested o s γ P L a q e body' f s' γ' ∧
        Probes subject start s.code current (tests.map fun e => (index, e)) s'.code f := by
  induction tests generalizing current s γ p with
  | nil =>
    exact ends_pure.mpr ⟨γ, body, rfl, hne,
      ⟨(Same.refl s).calm γ, hi, hcurrent.until room.le, _, hbody⟩, .refl hs⟩
  | cons test tests ih =>
    obtain ⟨r, room1, room2⟩ := room.split
    unfold caseTests
    refine probed_test hi hv room1 hcurrent hs fun b f s3 γ3 h3 => ?_
    have hc3 := h3.calm
    have hv3 : values s3 = [] := hc3.values.trans hv
    have hno := h3.no
    have hyes := h3.yes
    have hcode := h3.code
    rw [hv3] at hno hyes hcode
    have hloose : Loose s3.code (.single b.yes) b.yes := h3.inv.loose List.mem_cons_self rfl rfl
    have hquiet : (s3.code.op b.yes).isQuiet = true := Op.isQuiet_of_isTarget hyes.kind
    cases destination with
    | some join =>
      have hjoin := (hdest join rfl).step hc3.step
      refine (made_jump_linked (p := r) h3.inv (by rw [hv3]; exact hyes.spans)
        (by rw [hv3]; exact hjoin.from room2.le) rfl q).bind ?_
      rintro _ s4 ⟨⟨γ4, h4⟩, -, hjump⟩
      obtain ⟨k, hlink, hop⟩ := hjump b.yes rfl
      have hc4 := h4.calm
      have hc := hc3.trans hc4
      have hi4 : Inv o s4 γ4 P (f.exitingAt b.no :: body :: L) := h4.inv.forget.swap.exitingAt
      have hfirst : Probes subject start s.code current [(index, test)] s4.code (f.exitingAt b.no) :=
        h3.probes hc4.step hstart fun answers =>
          (Code.passes_link (by rwa [hc4.step.ops _ hyes.lt]) hlink).trans (Code.passes_goto hop)
      refine (ih hi4 (hc.values.trans hv) room2 ?_ nofun (hbody.step hc.step)
        ((hcode.step hc4.step).leavingAt (hno.step hc4.step)) hfirst.steady).mono ?_
      · rintro _ ⟨⟩
        exact hjoin.step hc4.step
      · rintro g s5 ⟨γ5, body', hexit, hne', h5, hrest⟩
        exact ⟨γ5, body', hexit, hne', { h5 with toCalm := hc.trans h5.toCalm },
          hfirst.trans hrest hc.step.extends h5.step.extends⟩
    | none =>
      obtain rfl : tests = [] := by simpa using honce rfl
      have hi3 : Inv o s3 γ3 P (.single b.yes :: body :: f :: .single b.no :: L) :=
        h3.inv.perm (by grind)
      have hbody3 := (hbody.step hc3.step).from room2.le
      obtain ⟨hi4, st4, sp4⟩ := hi3.append hyes.spans hbody3
      obtain ⟨e, he⟩ := Option.isSome_iff_exists.mp (by simpa [Fragment.isEmpty] using hne)
      obtain ⟨-, hlink⟩ := hloose.append he (hbody3.entry e he).1
      unfold startingAt chain
      rw [pure_bind, ends_bind, ends_bind, ends_append]
      refine ends_pure.mpr (ends_pure.mpr ?_)
      rw [append_single hne] at hi4 sp4
      have hi5 : Inv o _ γ3 P (f :: .single b.no :: ⟨some b.yes, body.exit⟩ :: L) := hi4.perm (by grind)
      have hc : Calm s γ { s3 with code := ((Fragment.single b.yes).append body s3.code).2 } γ3 :=
        ⟨hc3.step.trans st4, hc3.values, hc3.around⟩
      exact ⟨γ3, ⟨some b.yes, body.exit⟩, rfl, rfl, ⟨hc, hi5.exitingAt,
        ((hcode.step st4).leavingAt (hno.step st4)).until room2.le, _, sp4⟩, h3.probes st4
          (hstart.trans he) fun answers =>
            Code.passes_link (by rwa [st4.ops _ hyes.lt]) hlink⟩

theorem ends_jumpedTo {Q : Option Nat → State → Prop} (ht : s.switches.head? = some t)
    (h : Q (t.joinOf index) s) : Ends env (jumpedTo index) s Q := by
  unfold jumpedTo
  rw [ends_bind, ends_get, ht, show required (some t) = (pure t : LowerM SwitchTargets) from rfl,
    pure_bind, ends_pure]
  exact h

theorem tested_present {body : Fragment} (hi : Inv o s γ P (.single i :: body :: L))
    (hentry : Spans o s.code γ a (.single i) a') (hbody : Spans o s.code γ a' body z)
    (hne : body.isEmpty = false) :
    Ends env (startingAt i [pure body]) s fun b s' => b = ⟨some i, body.exit⟩ ∧ Calm s γ s' γ ∧
      Inv o s' γ P (⟨some i, body.exit⟩ :: L) ∧ Spans o s'.code γ a ⟨some i, body.exit⟩ z ∧
      ∀ e, body.entry = some e → s'.code.Linked i e := by
  obtain ⟨hi', st, sp⟩ := hi.append hentry hbody
  rw [append_single hne] at hi' sp
  unfold startingAt chain
  rw [pure_bind, ends_bind, ends_append]
  refine ends_pure.mpr ⟨append_single hne, ⟨st, rfl, rfl⟩, hi', sp, fun e he => ?_⟩
  exact ((hi.loose List.mem_cons_self rfl rfl).append he (hbody.entry e he).1).2

/-- From `s` on, code was made that is all that is left in hand. -/
structure Switched (ordered : Bool) (s : State) (γ : Notes) (P : Kept) (L : List Fragment) (a : Note)
    (q : Mark) (f : Fragment) (s' : State) (γ' : Notes) : Prop extends Calm s γ s' γ' where
  inv : Inv ordered s' γ' P (f :: L)
  spans : Spans ordered s'.code γ' a f q

theorem Switched.after (h : Switched o s' γ' P L a q f s'' γ'') (hc : Calm s γ s' γ') :
    Switched o s γ P L a q f s'' γ'' :=
  { h with toCalm := hc.trans h.toCalm }

/-- The end of the last body and the end of the tests go on in one place. -/
theorem switched_lastCase {body tok current : Fragment} (hi : Inv o s γ P (current :: tok :: L))
    (hv : values s = []) (room : Room o true env P p q) (hcurrent : Spans o s.code γ a current p)
    (htok : Spans o s.code γ z tok p) (hexit : tok.exit = body.exit) (hne : tok.isEmpty = false)
    (hne' : body.isEmpty = false) (hne'' : current.isEmpty = false) :
    Ends env (do
      let join ← makeJoin
      let _ ← chain current [gotoJoin join]
      let _ ← chain body [gotoJoin join]
      return current.exitingAt join) s fun f s' => (∃ γ', Switched o s γ P L a q f s' γ') ∧
        f.entry = current.entry ∧ ∃ j, f.exit = some j ∧
          ∀ x, current.exit = some x ∨ body.exit = some x →
            ∃ i, s'.code.Linked x i ∧ s'.code.op i = .goto j := by
  refine (begun_makeJoin hi room.last).bind ?_
  rintro join s1 ⟨γ1, h1⟩
  have hv1 : values s1 = [] := h1.values.trans hv
  have hjoin := h1.placed
  rw [hv1] at hjoin
  refine (made_jump_linked (a := a) (p := p) h1.inv.swap ?_ ?_ hne'' p).bind ?_
  · rw [hv1]
    exact hcurrent.step h1.step
  · rw [hv1]
    exact hjoin.before room.lt.2
  rintro g s2 ⟨⟨γ2, h2⟩, hentry, hlink⟩
  have hc2 := h1.toCalm.trans h2.calm
  have hv2 : values s2 = [] := hc2.values.trans hv
  have hi2 : Inv o s2 γ2 P (tok :: g :: .single join :: L) := h2.inv.perm (by grind)
  have hj2 := hjoin.step h2.step
  -- The body may have got a join in front, but it still ends where the fragment in hand does.
  have hbody : Ends env (chain body [gotoJoin join]) s2 fun _ s' =>
      ∃ γ', Calm s2 γ2 s' γ' ∧ Inv o s' γ' P (g :: .single join :: L) := by
    refine ends_chain_congr hexit hne hne' ((made_jump (a := z) (p := p) hi2 ?_ ?_ p).mono ?_)
    · rw [hv2]
      exact htok.step hc2.step
    · rw [hv2]
      exact hj2.before room.lt.2
    · rintro _ s3 ⟨γ3, h3⟩
      exact ⟨γ3, h3.calm, h3.inv.forget⟩
  have hlink' : Ends env (chain body [gotoJoin join]) s2 fun _ s' =>
      ∀ x, body.exit = some x → ∃ i, s'.code.Linked x i ∧ s'.code.op i = .goto join := by
    refine ends_forall_exit fun x hx => ?_
    have hx' := hi2.loose List.mem_cons_self hne (hexit.trans hx)
    exact ends_jump ⟨hne', hx, hx'.bound, hx'.next⟩
  refine (hbody.and hlink').bind ?_
  rintro _ s3 ⟨⟨γ3, hc3, hi3⟩, hlink'⟩
  have hc := hc2.trans hc3
  refine ends_pure.mpr ⟨⟨γ3, hc, ?_, ?_⟩, rfl, join, rfl, ?_⟩
  · exact hi3.exitingAt.sameEntry (fun _ => hentry) rfl
  · exact ((hcurrent.step hc.step).until room.le).leavingAt (hj2.step hc3.step)
  · rintro x (hx | hx)
    · obtain ⟨i, hi, hop⟩ := hlink x hx
      exact ⟨i, hc3.step.links x i hi, hc3.step.extends.op_eq hop rfl⟩
    · exact hlink' x hx

/-! ## The right case -/

/-- The code behind `current` gets to the right one of the cases from an index on. -/
structure Chosen (t : SwitchTargets) (subject : Variable) (start : Nat → Option Nat) (index : Nat)
    (cases : List (SwitchCase × Fragment)) (c : Code) (current : Fragment) (c' : Code)
    (f : Fragment) : Prop where
  entry : f.entry = current.entry
  tests : ∀ x, current.exit = some x →
    c'.Asks subject start c.size (orderedTests index (cases.map (·.1))) x
      (otherwise start f.exit index (cases.map (·.1)))
  bodies : ∀ k case j e, cases[k]? = some case → t.joinOf (index + k) = some j →
    case.2.entry = some e → c'.Linked j e
  ends : ∀ case x, cases.getLast? = some case → case.2.exit = some x →
    if case.1.isDefault then current.exit.isSome = true → f.exit = some x
    else ∃ i j, c'.Linked x i ∧ c'.op i = .goto j ∧ f.exit = some j

section Chosen

variable {c c1 c' : Code} {case : SwitchCase} {body current : Fragment}
  {rest : List (SwitchCase × Fragment)}

theorem chosen_nil : Chosen t subject start index [] c current c current where
  entry := rfl
  tests x hx := by
    rw [hx]
    exact .of_passes fun answers => .refl c answers x
  bodies := by simp
  ends := by simp

theorem Chosen.cons (hd : case.isDefault = false)
    (hp : Probes subject start c current (case.tests.map fun e => (index, e)) c1 f')
    (hr : Chosen t subject start (index + 1) rest c1 f' c' f) (hc : c.Extends c1)
    (hc' : c1.Extends c')
    (hbody : ∀ j e, t.joinOf index = some j → body.entry = some e → c1.Linked j e)
    (hlast : rest = [] → body.exit = none) :
    Chosen t subject start index ((case, body) :: rest) c current c' f where
  entry := hr.entry.trans hp.entry
  tests x hx := by
    obtain ⟨y, hy, hasks⟩ := hp.asks x hx
    rw [List.map_cons, Graph.orderedTests_cons hd, Graph.otherwise_cons hd]
    exact hasks.trans hc' (hr.tests y hy) hc.size
  bodies := by
    rintro (_ | k) p j e hk hj he
    · obtain rfl : (case, body) = p := by simpa using hk
      exact hc'.links j e (hbody j e hj he)
    · refine hr.bodies k p j e hk ?_ he
      rwa [Nat.add_assoc, Nat.add_comm 1 k]
  ends p x hlast' hx := by
    cases rest with
    | nil =>
      obtain rfl : (case, body) = p := by simpa using hlast'
      simp [hlast rfl] at hx
    | cons q rest =>
      rw [List.getLast?_cons_cons] at hlast'
      have := hr.ends p x hlast' hx
      split at this
      · rw [if_pos ‹_›]
        refine fun hsome => this ?_
        obtain ⟨y, hy⟩ := Option.isSome_iff_exists.mp hsome
        obtain ⟨z, hz, -⟩ := hp.asks y hy
        simp [hz]
      · rwa [if_neg ‹_›]

theorem chosen_last {j : Nat} (hd : case.isDefault = false)
    (hp : Probes subject start c current (case.tests.map fun e => (index, e)) c1 f')
    (hsp : ∀ y, f'.exit = some y → y < c1.size) (hc : c.Extends c1) (hc' : c1.Extends c')
    (hbody : ∀ j e, t.joinOf index = some j → body.entry = some e → c1.Linked j e)
    (hentry : f.entry = f'.entry) (hexit : f.exit = some j)
    (hjoin : ∀ x, f'.exit = some x ∨ body.exit = some x → ∃ i, c'.Linked x i ∧ c'.op i = .goto j) :
    Chosen t subject start index [(case, body)] c current c' f where
  entry := hentry.trans hp.entry
  tests x hx := by
    obtain ⟨y, hy, hasks⟩ := hp.asks x hx
    obtain ⟨i, hlink, hop⟩ := hjoin y (.inl hy)
    have hquiet : (c'.op y).isQuiet = true := by
      rw [hc'.isQuiet (hsp y hy)]
      exact hp.steady.quiet y hy
    rw [List.map_singleton, Graph.orderedTests_cons hd, Graph.otherwise_cons hd]
    refine hasks.trans hc' ?_ hc.size
    rw [hexit]
    exact .of_passes fun answers => (Code.passes_link hquiet hlink).trans (Code.passes_goto hop)
  bodies := by
    rintro (_ | k) p j e hk hj he
    · obtain rfl : (case, body) = p := by simpa using hk
      exact hc'.links j e (hbody j e hj he)
    · simp at hk
  ends p x hlast hx := by
    obtain rfl : (case, body) = p := by simpa using hlast
    obtain ⟨i, hlink, hop⟩ := hjoin x (.inr hx)
    rw [if_neg (by simp [hd])]
    exact ⟨i, j, hlink, hop, hexit⟩

theorem chosen_default (hd : case.isDefault = true) (hentry : f.entry = current.entry)
    (hp : ∀ x, current.exit = some x →
      ∃ y, start index = some y ∧ ∀ answers, c'.Passes answers x [] y)
    (hbody : ∀ j e, t.joinOf index = some j → body.entry = some e → c'.Linked j e)
    (hexit : current.exit.isSome = true → f.exit = body.exit) :
    Chosen t subject start index [(case, body)] c current c' f where
  entry := hentry
  tests x hx := by
    obtain ⟨y, hy, hpasses⟩ := hp x hx
    have htests : orderedTests index [case] = [] := by simp [orderedTests, hd]
    have hother : otherwise start f.exit index [case] = some y := by simp [otherwise, hd, hy]
    rw [List.map_singleton, htests, hother]
    exact .of_passes hpasses
  bodies := by
    rintro (_ | k) p j e hk hj he
    · obtain rfl : (case, body) = p := by simpa using hk
      exact hbody j e hj he
    · simp at hk
  ends p x hlast hx := by
    obtain rfl : (case, body) = p := by simpa using hlast
    rw [if_pos hd]
    exact fun hsome => (hexit hsome).trans hx

end Chosen

theorem Body.step (h : Body o s γ R index f) (st : Step s γ s' γ') : Body o s' γ' R index f :=
  ⟨h.spans.step st, h.nonempty⟩

theorem chosen_switchTests (start : Nat → Option Nat) {cases : List (SwitchCase × Fragment)}
    {current : Fragment} (ht : s.switches.head? = some t)
    (hi : Inv o s γ P (current :: (cases.map (·.2) ++ (remaining t index ++ L)))) (hv : values s = [])
    (ho : Ordered o env P p R r) (room : Room o true env P r q)
    (hjoins : ∀ d ∈ t.destinations, Placed Op.isJoin s.code γ (R (2 * d.1)) d.2)
    (hcurrent : Spans o s.code γ a current p) (hs : Steady s.code current)
    (hbodies : ∀ k c, cases[k]? = some c → Body o s γ R (index + k) c.2)
    (honce : ∀ i c, cases[i]? = some c → 1 < c.1.tests.length → (t.joinOf (index + i)).isSome)
    (hdefault : ∀ c ∈ (cases.map (·.1)).dropLast, c.isDefault = false)
    (hstart : ∀ k c, cases[k]? = some c → start (index + k) = (t.joinOf (index + k)).or c.2.entry) :
    Ends env (switchTests subject index cases current) s fun f s' =>
      ∃ γ', Switched o s γ P L a q f s' γ' ∧
        Chosen t subject start index cases s.code current s'.code f := by
  have hr := ho.first.le.trans (ho.last 0).le
  induction cases generalizing current s γ index p with
  | nil =>
    have hi' : Inv o s γ P (current :: L) :=
      hi.sublist ((List.sublist_append_right _ L).cons_cons current)
    exact ends_pure.mpr ⟨γ, ⟨(Same.refl s).calm γ, hi', hcurrent.until (hr.trans room.le)⟩, chosen_nil⟩
  | cons c rest ih =>
    obtain ⟨c, body⟩ := c
    unfold switchTests
    have hone : t.joinOf index = none → c.tests.length ≤ 1 := fun hj => by
      by_contra hlen
      have := honce 0 (c, body) rfl (Nat.lt_of_not_le hlen)
      rw [Nat.add_zero, hj] at this
      cases this
    generalize hd : c.isDefault = isDefault
    let M := rest.map (·.2) ++ (remaining t (index + 1) ++ L)
    have hM : L.Sublist M := (List.sublist_append_right _ L).trans (List.sublist_append_right _ _)
    -- The tests come before the joins of the cases that are left.
    obtain ⟨p', room1, room2⟩ := ho.first.split
    have ho' : Ordered o env P p' R r := ⟨room2, ho.room, ho.last⟩
    have hnext : Room o true env P p' (R (2 * index)) := by
      rcases Nat.eq_zero_or_pos (2 * index) with h | h
      · exact h ▸ room2
      · exact room2.trans (ho.room 0 _ h)
    have hp' := room2.le.trans (ho.last 0).le
    have hlast := (ho.last (2 * (index + 1))).le
    -- Behind a default there is no case left.
    have hend : ∀ body' f s1 γ1, isDefault = true → Calm s γ s1 γ1 → Inv o s1 γ1 P (f :: M) →
        Spans o s1.code γ1 a f r →
        Chosen t subject start index [(c, body)] s.code current s1.code f →
        Ends env (do
          if rest.isEmpty && !isDefault && body'.isOpen then
            let join ← makeJoin
            let _ ← chain f [gotoJoin join]
            let _ ← chain body' [gotoJoin join]
            return f.exitingAt join
          switchTests subject (index + 1) rest f) s1 fun f s' =>
            ∃ γ', Switched o s γ P L a q f s' γ' ∧
              Chosen t subject start index ((c, body) :: rest) s.code current s'.code f := by
      rintro body' f s1 γ1 rfl hc1 hi1 sp1 hchosen
      obtain rfl : rest = [] := by
        rcases rest with _ | ⟨c', rest⟩
        · rfl
        · exact absurd (hdefault c (by simp)) (by simp [hd])
      exact ends_pure.mpr ⟨γ1, ⟨hc1, hi1.sublist (hM.cons_cons f), sp1.until room.le⟩, hchosen⟩
    -- The tests of the case are made. The end of its body is still open.
    have hrest : ∀ body' tok f s1 γ1, isDefault = false →
        Tested o s γ P M a p' (R (2 * (index + 1))) tok f s1 γ1 →
        tok.exit = body'.exit → tok.isEmpty = false → body'.isEmpty = false →
        body'.exit = body.exit →
        Probes subject start s.code current (c.tests.map fun e => (index, e)) s1.code f →
        (∀ j e, t.joinOf index = some j → body.entry = some e → s1.code.Linked j e) →
        Ends env (do
          if rest.isEmpty && !isDefault && body'.isOpen then
            let join ← makeJoin
            let _ ← chain f [gotoJoin join]
            let _ ← chain body' [gotoJoin join]
            return f.exitingAt join
          switchTests subject (index + 1) rest f) s1 fun f s' =>
            ∃ γ', Switched o s γ P L a q f s' γ' ∧
              Chosen t subject start index ((c, body) :: rest) s.code current s'.code f := by
      rintro body' tok f s1 γ1 rfl h1 hexit hne hne' hexit' hprobes hlink
      have hc1 := h1.toCalm
      have hv1 := hc1.values.trans hv
      split
      · rename_i hnil
        obtain ⟨⟨hrest, -⟩, -⟩ : (rest.isEmpty = true ∧ _) ∧ _ := by
          simpa only [Bool.and_eq_true] using hnil
        obtain rfl := List.isEmpty_iff.mp hrest
        obtain ⟨_, hbody⟩ := h1.body
        refine (switched_lastCase h1.inv hv1 room (h1.current.until hp') (hbody.until hlast) hexit hne
          hne' hprobes.steady.nonempty).mono ?_
        rintro g s2 ⟨⟨γ2, h2⟩, hentry, j, hj, hjoin⟩
        rw [hexit'] at hjoin
        refine ⟨γ2, Switched.after { h2 with inv := h2.inv.sublist (hM.cons_cons g) } hc1, ?_⟩
        exact chosen_last hd hprobes (fun y hy => (h1.current.exit y hy).1) hc1.step.extends
          h2.step.extends hlink hentry hj hjoin
      · rename_i hopen
        refine (ih (hc1.switches ▸ ht) h1.inv.swap.forget hv1 ho'
          (fun d hd => (hjoins d hd).step hc1.step) h1.current hprobes.steady (fun k c hc => ?_)
          (fun i c hc hlen => ?_) (fun c hc => hdefault c ?_) (fun k c hc => ?_) hp').mono ?_
        · rw [Nat.add_assoc, Nat.add_comm 1 k]
          exact (hbodies (k + 1) c hc).step hc1.step
        · rw [Nat.add_assoc, Nat.add_comm 1 i]
          exact honce (i + 1) c hc hlen
        · rcases rest with _ | ⟨c', rest⟩
          · cases hc
          · exact List.mem_cons_of_mem _ hc
        · rw [Nat.add_assoc, Nat.add_comm 1 k]
          exact hstart (k + 1) c hc
        · rintro f s2 ⟨γ2, h2, hchosen⟩
          refine ⟨γ2, h2.after hc1, hchosen.cons hd hprobes hc1.step.extends h2.step.extends hlink ?_⟩
          rintro rfl
          have hclosed : ¬body'.entry = none ∧ body'.exit = none := by
            simpa [Fragment.isOpen] using hopen
          exact hexit' ▸ hclosed.2
    obtain ⟨hbody, hne⟩ := hbodies 0 (c, body) rfl
    have hbody' := hbody.from (hnext.trans (ho.room _ _ (Nat.lt_succ_self (2 * index)))).le
    have hstart0 : start index = (t.joinOf index).or body.entry := hstart 0 (c, body) rfl
    refine ends_bind.mpr (ends_jumpedTo ht ?_)
    cases hj : t.joinOf index with
    | none =>
      rw [hj] at hstart0
      refine ends_bind.mpr (ends_pure.mpr ?_)
      have hi' : Inv o s γ P (current :: body :: M) :=
        hi.sublist (((((remaining_sublist t index).append_right L).append_left _).cons_cons
          body).cons_cons current)
      have hlink : ∀ {c : Code} j e, t.joinOf index = some j → body.entry = some e → c.Linked j e :=
        fun j e hj' => by simp [hj] at hj'
      cases isDefault with
      | true =>
        obtain ⟨hi1, st1, sp1⟩ := hi'.append hcurrent (hbody'.from room1.le)
        refine ends_bind.mpr (ends_append.mpr ?_)
        refine hend body _ _ γ rfl ⟨st1, rfl, rfl⟩ hi1 (sp1.until hlast)
          (chosen_default hd (append_entry hs.nonempty) (fun x hx => ?_) hlink ?_)
        · obtain ⟨e, he⟩ := Option.isSome_iff_exists.mp (by simpa [Fragment.isEmpty] using hne)
          obtain ⟨-, hlinked⟩ := (hi'.loose List.mem_cons_self hs.nonempty hx).append he
            (hbody.entry e he).1
          exact ⟨e, hstart0.trans he, fun answers => Code.passes_link
            (by rw [st1.ops x (hcurrent.exit x hx).1]; exact hs.quiet x hx) hlinked⟩
        · intro hsome
          obtain ⟨x, hx⟩ := Option.isSome_iff_exists.mp hsome
          obtain ⟨e, he⟩ := Option.isSome_iff_exists.mp (by simpa [Fragment.isEmpty] using hne)
          rw [append_of_exit hs.nonempty hx he]
      | false =>
        have hdest : ∀ j, none = some j → Ahead Op.isJoin s.code γ p' false j := by simp
        refine (tested_caseTests hi' hv room1 hdest (fun _ => hone hj) hne hbody' hcurrent hs
          hstart0).bind ?_
        rintro f s1 ⟨γ1, tok, hexit, hne', h1, hprobes⟩
        exact hrest body tok f s1 γ1 rfl h1 hexit hne' hne rfl hprobes hlink
    | some join =>
      rw [hj] at hstart0
      have hjoin : Placed Op.isJoin s.code γ (R (2 * index)) join := by
        obtain ⟨d, hd, rfl⟩ := Option.map_eq_some_iff.mp hj
        obtain rfl : d.1 = index := by simpa using List.find?_some hd
        exact hjoins d (List.mem_of_find?_eq_some hd)
      obtain ⟨l, hl, hsub⟩ := remaining_succ hj
      have hi' : Inv o s γ P (.single join :: body :: current :: M) := by
        have hi0 : Inv o s γ P (current :: body :: (rest.map (·.2) ++ (l ++ L))) :=
          hi.sublist ((((hsub.append_right L).append_left _).cons_cons body).cons_cons current)
        refine hi0.perm ?_
        have hl' : (rest.map (·.2) ++ (l ++ L)).Perm (.single join :: M) :=
          ((hl.append_right L).append_left _).trans List.perm_middle
        exact ((hl'.cons body).cons current).trans (by grind)
      have hspans := (ho.room _ _ (Nat.lt_succ_self (2 * index))).le
      refine (tested_present hi' (hjoin.spans.until hspans) hbody hne).bind ?_
      rintro _ s1 ⟨rfl, hc1, hi1, sp1, hlinked⟩
      have hv1 := hc1.values.trans hv
      have hj1 := hjoin.step hc1.step
      have hs1 := hs.step hcurrent hc1.step
      have hcurrent1 := hcurrent.step hc1.step
      have hlink : ∀ j e, t.joinOf index = some j → body.entry = some e → s1.code.Linked j e := by
        rintro j e hj' he
        obtain rfl := Option.some.inj (hj.symm.trans hj')
        exact hlinked e he
      cases isDefault with
      | true =>
        refine (made_jump_linked (p := p) hi1.swap (by rwa [hv1])
          (by rw [hv1]; exact hj1.before (room1.trans hnext).lt.2) hs.nonempty p).bind ?_
        rintro f s2 ⟨⟨γ2, h2⟩, hentry, hgo⟩
        have hi2 : Inv o s2 γ2 P (f :: ⟨some join, body.exit⟩ :: M) := h2.inv
        refine ends_bind.mpr (ends_pure.mpr ?_)
        refine hend _ _ s2 γ2 rfl (hc1.trans h2.calm) hi2.entryExit
          (h2.spans.exits ((sp1.step h2.step).until hlast) fun hnone => ?_)
          (chosen_default hd hentry (fun x hx => ?_) ?_ fun _ => rfl)
        · exact absurd hs.nonempty (by simp [Fragment.isEmpty, ← hentry, hnone])
        · obtain ⟨i, hi, hop⟩ := hgo x hx
          refine ⟨join, hstart0, fun answers =>
            (Code.passes_link ?_ hi).trans (Code.passes_goto hop)⟩
          rw [h2.step.ops x (hcurrent1.exit x hx).1]
          exact hs1.quiet x hx
        · exact fun j e hj' he => h2.step.links j e (hlink j e hj' he)
      | false =>
        have hdest : ∀ j, some join = some j → Ahead Op.isJoin s1.code γ p' false j := by
          rintro _ ⟨⟩
          exact hj1.before hnext.lt.2
        refine (tested_caseTests hi1.swap hv1 room1 hdest (by simp) rfl (sp1.from hnext.le) hcurrent1
          hs1 hstart0).bind ?_
        rintro f s2 ⟨γ2, tok, hexit, hne', h2, hprobes⟩
        have h2' : Tested o s γ P M a p' (R (2 * (index + 1))) tok f s2 γ2 :=
          { h2 with toCalm := hc1.trans h2.toCalm }
        exact hrest _ tok f s2 γ2 rfl h2' hexit hne' rfl rfl (hprobes.after hc1.step.size)
          fun j e hj' he => h2.step.links j e (hlink j e hj' he)

/-! ## The whole switch -/

/-- From `s` on, the value of the subject was stored. -/
structure Stored (ordered : Bool) (s : State) (γ : Notes) (P : Kept) (L : List Fragment) (p q : Mark)
    (v : Variable) (code : Fragment) (value : Graph.Use) (head : Fragment) (s' : State) (γ' : Notes) :
    Prop extends Built ordered s γ P L p q head s' γ' where
  steady : Steady s'.code head
  entry : head.entry = code.entry
  store : ∀ x, code.exit = some x → ∃ i, head.exit = some i ∧ s'.code.Linked x i ∧
    s'.code.op i = .storeLocal v value

theorem stored_head {e : Tree.Expr} {v : Variable}
    {k : Fragment → State → Fragment → LowerM Fragment} {Q : Fragment → State → Prop}
    (h : Ready o s γ P L) (room : Room o true env P p q) (hk : ∀ code t head s' γ',
      Stored o s γ P L p q v code (t.stack.head?.map (·.definition)) head s' γ' →
        Ends env (k code t head) s' Q) :
    Ends env (do
      let code ← lowerExpr e
      let t ← get
      let head ← chain code [storeLocal v, drop]
      k code t head) s Q := by
  obtain ⟨r, room1, room2⟩ := room.split
  have hsubject : Makes o (lowerExpr e) 0 1 := inferInstance
  have hstore : Continues o (fun f => chain f [storeLocal v, drop]) 1 0 := inferInstance
  refine (hsubject.made env s γ P (L ++ pending s) p r h.inv room1).bind ?_
  rintro code s1 ⟨γ1, h1⟩
  -- The code of the subject is not empty, as it leaves a value.
  have hcode : code.isEmpty = false := by
    obtain ⟨d, hd⟩ := h1.effect.uncons
    rw [Fragment.isEmpty, Option.isNone_eq_false_iff, Option.isSome_iff_ne_none]
    intro hnone
    have hsub := (h1.spans.empty hnone).1
    rw [hd, h.empty] at hsub
    exact List.not_mem_nil (hsub List.mem_cons_self)
  rw [ends_bind, ends_get]
  have hgrown : Ends env (chain code [storeLocal v, drop]) s1 _ :=
    ends_forall_exit (f := code) fun x hx =>
      ends_storeLocal_drop (h1.inv.loose List.mem_cons_self hcode hx)
  refine (Ends.and (hstore.made env s1 γ1 P _ _ r q code h1.inv room2 h1.spans)
    (entry_chain.and (closed_chain.and hgrown))).bind ?_
  rintro head s2 ⟨⟨γ2, h2⟩, hentry, hclosed, hgrown⟩
  have hmade : Made o s γ P (L ++ pending s) p 0 0 q head s2 γ2 := by
    have heffect : Effect 0 0 (values s) (values s2) := by simpa using h1.effect.trans h2.effect
    have hspans := h2.spans
    rw [h.empty] at hspans
    exact ⟨h2.inv, h1.step.trans h2.step, heffect, hspans, h2.around.trans h1.around⟩
  refine hk code _ head s2 γ2 ⟨.of_made h hmade, ⟨?_, fun y hy => ?_⟩, hentry hcode, fun x hx => ?_⟩
  · rw [Fragment.isEmpty, hentry hcode]
    exact hcode
  · cases hx : code.exit with
    | none =>
      rw [hclosed hcode hx, hx] at hy
      cases hy
    | some x =>
      obtain ⟨i, rfl, hx, rfl⟩ := hgrown x hx
      obtain rfl := Option.some.inj hy
      rw [hx.op]
      rfl
  · obtain ⟨i, rfl, hx, rfl⟩ := hgrown x hx
    exact ⟨s1.code.size, rfl, hx.link, hx.op⟩

theorem Ready.withSwitch (h : Ready o s γ P L) (ht : t.destinations = [])
    (htry : t.landing.tryIndex = s.tries.headD Graph.noTry) (room : Room o true env P p q)
    (hR : ∀ k, p < R k) : Ready o { s with switches := t :: s.switches } γ (P.switch R) L := by
  have hj : joins { s with switches := t :: s.switches } = joins s := by
    simp [joins, ht]
  refine ⟨?_, h.empty⟩
  rw [pending, hj]
  have hreserved : ∀ k, Reserved s.nextTry s.code γ t.landing (R (2 * k)) fun j =>
      (k, j) ∈ t.destinations := fun k => by
    have hregion := (room.state rfl).trans (hR (2 * k)).1
    refine ⟨?_, isRegion_tries h.inv hregion, by simp [ht]⟩
    rw [htry, h.inv.regions.tries.1, hregion]
  exact { h.inv with regions := { h.inv.regions with cases := .cons hreserved h.inv.regions.cases } }

theorem Ready.popSwitch {ts : List SwitchTargets} (h : Ready o s γ (P.switch R) L)
    (ht : s.switches = t :: ts) :
    Inv o s γ (P.switch R) (remaining t 0 ++ (L ++ pending { s with switches := ts })) ∧
      ∀ d ∈ t.destinations, Placed Op.isJoin s.code γ (R (2 * d.1)) d.2 := by
  have hj : (joins s).Perm (t.destinations.map (·.2) ++ joins { s with switches := ts }) := by
    simp only [joins, ht, List.flatMap_cons]
    rw [← List.append_assoc, ← List.append_assoc]
    exact List.perm_append_comm.append_right _
  have hcases := h.inv.regions.cases
  rw [ht, Kept.switch, List.forall₂_cons] at hcases
  refine ⟨h.inv.perm ?_, fun d hd => (hcases.1 d.1).placed d.2 hd⟩
  have hrem : remaining t 0 = (t.destinations.map (·.2)).map Fragment.single := by
    simp [remaining]
  rw [hrem, ← List.append_assoc]
  refine ((hj.map Fragment.single).append_left L).trans ?_
  rw [List.map_append, ← List.append_assoc]
  exact List.perm_append_comm.append_right _

theorem Inv.closeSwitch {ts : List SwitchTargets} (h : Inv o s γ (P.switch R) L)
    (ht : s.switches = t :: ts) : Inv o { s with switches := ts } γ P L := by
  have hcases := h.regions.cases
  rw [ht, Kept.switch, List.forall₂_cons] at hcases
  exact { h with regions := { h.regions with cases := hcases.2 } }

/-! ## Layouts -/

section Layout

variable {cases : List SwitchCase} {bodies : List (Fragment × Fragment)}

theorem getElem?_caseLayouts (fragments : List Fragment) (k : Nat) :
    (caseLayouts t cases fragments)[k]? =
      (cases.zip fragments)[k]?.map fun p => ⟨p.1, p.2, t.joinOf k⟩ := by
  unfold caseLayouts
  rw [List.getElem?_map, List.getElem?_zipIdx, Option.map_map, Nat.zero_add]
  rfl

theorem source_caseLayouts {fragments : List Fragment} (h : fragments.length = cases.length) :
    (caseLayouts t cases fragments).map (·.source) = cases := by
  refine List.ext_getElem? fun k => ?_
  rw [List.getElem?_map, getElem?_caseLayouts, Option.map_map, ← List.getElem?_map]
  exact congrArg (·[k]?) (List.map_fst_zip h.ge)

theorem body_caseLayouts {fragments : List Fragment} (h : fragments.length = cases.length) :
    (caseLayouts t cases fragments).map (·.body) = fragments := by
  refine List.ext_getElem? fun k => ?_
  rw [List.getElem?_map, getElem?_caseLayouts, Option.map_map, ← List.getElem?_map]
  exact congrArg (·[k]?) (List.map_snd_zip h.le)

theorem mem_caseLayouts {k : Nat} {case : Graph.CaseLayout}
    (h : (caseLayouts t cases (bodies.map (·.1)))[k]? = some case) :
    cases[k]? = some case.source ∧ case.join = t.joinOf k ∧
      ∃ b, bodies[k]? = some b ∧ b.1 = case.body := by
  rw [getElem?_caseLayouts] at h
  obtain ⟨p, hp, rfl⟩ := Option.map_eq_some_iff.mp h
  obtain ⟨hc, hb⟩ := List.getElem?_zip_eq_some.mp hp
  rw [List.getElem?_map] at hb
  obtain ⟨b, hb, hbp⟩ := Option.map_eq_some_iff.mp hb
  exact ⟨hc, rfl, b, hb, hbp⟩

theorem caseLayouts_of_getElem? {k : Nat} {case : SwitchCase} {b : Fragment × Fragment}
    (hc : cases[k]? = some case) (hb : bodies[k]? = some b) :
    (caseLayouts t cases (bodies.map (·.1)))[k]? = some ⟨case, b.1, t.joinOf k⟩ := by
  have hb' : (bodies.map (·.1))[k]? = some b.1 := by rw [List.getElem?_map, hb, Option.map_some]
  rw [getElem?_caseLayouts, List.getElem?_zip_eq_some (z := (case, b.1)) |>.mpr ⟨hc, hb'⟩,
    Option.map_some]

theorem Bodied.dispatches {s3 s4 : State} {γ3 γ4 : Notes} {n : Graph.SwitchLayout} {head : Fragment}
    (hb : Bodied o s γ P L R 0 cases bodies s3 γ3) (ht : s3.switches.head? = some t)
    (hcases : n.cases = caseLayouts t cases (bodies.map (·.1))) (hwhole : n.whole = f)
    (hentry : head.entry = n.code.entry)
    (hstore : ∀ x, n.code.exit = some x → ∃ i, head.exit = some i ∧ s3.code.Linked x i ∧
      s3.code.op i = .storeLocal n.holder n.value)
    (hdefault : ∀ c ∈ cases.dropLast, c.isDefault = false)
    (hjoins : ∀ d ∈ t.destinations, Placed Op.isJoin s3.code γ3 (R (2 * d.1)) d.2)
    (st : Step s3 γ3 s4 γ4)
    (hchosen : Chosen t n.holder n.start 0 (cases.zip (bodies.map (·.2))) s3.code head s4.code f) :
    Graph.Dispatches s4.code n := by
  have hlength : (bodies.map (·.1)).length = cases.length := by rw [List.length_map, hb.length]
  have hlength' : (bodies.map (·.2)).length = cases.length := by rw [List.length_map, hb.length]
  have hsources : n.sources = cases := by
    rw [Graph.SwitchLayout.sources, hcases]
    exact source_caseLayouts hlength
  have hzip : (cases.zip (bodies.map (·.2))).map (·.1) = cases := List.map_fst_zip hlength'.ge
  have hexit : n.whole.exit = f.exit := congrArg (·.exit) hwhole
  have hwhole' : ∀ {k : Nat} {case : SwitchCase} {b : Fragment × Fragment}, cases[k]? = some case →
      bodies[k]? = some b → (cases.zip (bodies.map (·.2)))[k]? = some (case, b.2) := fun hc hb =>
    List.getElem?_zip_eq_some.mpr ⟨hc, by rw [List.getElem?_map, hb, Option.map_some]⟩
  constructor
  case entry => rw [hwhole, hchosen.entry, hentry]
  case tests =>
    intro x hx
    obtain ⟨i, hi, hlink, hop⟩ := hstore x hx
    obtain ⟨asked, hnodup, -, htests, hchooses⟩ := hchosen.tests i hi
    rw [hzip, ← hsources] at htests hchooses
    rw [← hexit] at hchooses
    exact ⟨i, asked, st.links x i hlink, st.extends.op_eq hop rfl, hnodup, htests, hchooses⟩
  case bodies =>
    intro case hcase
    obtain ⟨k, hk⟩ := List.mem_iff_getElem?.mp hcase
    rw [hcases] at hk
    obtain ⟨hsource, hjoin, b, hbk, hbody⟩ := mem_caseLayouts hk
    obtain ⟨⟨-, hne⟩, hentry⟩ := hb.each k b hbk
    obtain ⟨e, he⟩ := Option.isSome_iff_exists.mp (by simpa [Fragment.isEmpty] using hne)
    refine ⟨e, hbody ▸ hentry ▸ he, fun j hj => ?_⟩
    rw [hjoin] at hj
    obtain ⟨p, hp, rfl⟩ := Option.map_eq_some_iff.mp hj
    refine ⟨((hjoins p (List.mem_of_find?_eq_some hp)).step st).kind, ?_⟩
    exact hchosen.bodies k _ p.2 e (hwhole' hsource hbk) (by rwa [Nat.zero_add]) he
  case distinct =>
    have hentries : n.cases.filterMap (·.body.entry) = (bodies.map (·.2)).filterMap (·.entry) := by
      have hbodies : n.cases.filterMap (·.body.entry) = (bodies.map (·.1)).filterMap (·.entry) := by
        rw [← body_caseLayouts (t := t) hlength, List.filterMap_map, hcases]
        rfl
      rw [hbodies, List.filterMap_map, List.filterMap_map]
      refine List.filterMap_congr fun b hmem => ?_
      obtain ⟨k, hk⟩ := List.mem_iff_getElem?.mp hmem
      exact (hb.each k b hk).2.symm
    rw [hentries]
    exact hb.ready.inv.hands.entries.sublist
      (((List.sublist_append_left _ L).trans (List.sublist_append_left _ _)).filterMap _)
  case shared =>
    intro case hcase hlen
    obtain ⟨k, hk⟩ := List.mem_iff_getElem?.mp hcase
    rw [hcases] at hk
    obtain ⟨hsource, hjoin, -⟩ := mem_caseLayouts hk
    rw [hjoin, ← Nat.zero_add k]
    exact hb.joins t ht k _ hsource hlen
  case falls =>
    intro k case next hk hnext x hx
    rw [hcases] at hk hnext
    obtain ⟨hsource, -, b, hbk, hbody⟩ := mem_caseLayouts hk
    obtain ⟨hsource', hjoin', -⟩ := mem_caseLayouts hnext
    have hlt : k + 1 < cases.length := (List.getElem?_eq_some_iff.mp hsource').1
    have hmem : case.source ∈ cases.dropLast := by
      refine List.mem_of_getElem? (i := k) ?_
      rw [List.getElem?_dropLast, if_pos (by omega), hsource]
    obtain ⟨i, j, t', hlink, hop, ht', hj⟩ := hb.falls k b case.source x hbk hsource
      (hdefault _ hmem) hlt (hbody ▸ hx)
    obtain rfl := Option.some.inj (ht.symm.trans ht')
    rw [Nat.zero_add] at hj
    exact ⟨i, j, st.links x i hlink, st.extends.op_eq hop rfl, hjoin'.trans hj⟩
  case ends =>
    intro case hlast x hx
    rw [List.getLast?_eq_getElem?] at hlast
    rw [hcases] at hlast
    have hlen : (caseLayouts t cases (bodies.map (·.1))).length = cases.length := by
      rw [← List.length_map, source_caseLayouts hlength]
    obtain ⟨hsource, -, b, hbk, hbody⟩ := mem_caseLayouts hlast
    rw [hlen] at hsource hbk
    have hraw := hb.last b (by rw [List.getLast?_eq_getElem?, hb.length, hbk])
    have hlast' : (cases.zip (bodies.map (·.2))).getLast? = some (case.source, b.2) := by
      rw [List.getLast?_eq_getElem?, List.length_zip, hlength', Nat.min_self]
      exact hwhole' hsource hbk
    have := hchosen.ends _ x hlast' (by rw [hraw, hbody, hx])
    split at this
    · rw [if_pos ‹_›, hexit]
      refine fun hsome => this ?_
      obtain ⟨y, hy⟩ := Option.isSome_iff_exists.mp hsome
      obtain ⟨i, hi, -⟩ := hstore y hy
      simp [hi]
    · rwa [if_neg ‹_›, hexit]

end Layout

theorem getElem?_of_find {id : Nat} (h : t.find id = some index) : t.cases[index]? = some id := by
  obtain ⟨p, hp, rfl⟩ := Option.map_eq_some_iff.mp h
  obtain ⟨hmem, hid⟩ := List.mem_filter.mp (List.mem_of_getLast? hp)
  obtain rfl : p.1 = id := by simpa using hid
  exact List.mk_mem_zipIdx_iff_getElem?.mp hmem

theorem Heads.pop {id : Nat} {ts : List SwitchTargets} {cases : List SwitchCase}
    {bodies : List (Fragment × Fragment)} {n : Graph.SwitchLayout} (h : Heads s i id)
    (hs : s.switches = t :: ts) (hids : t.cases = cases.map (·.id))
    (hcases : n.cases = caseLayouts t cases (bodies.map (·.1))) (hlength : bodies.length = cases.length)
    (hfirst : n.first ≤ i) (hpast : i < n.past) (hc : s.code.Extends s'.code)
    (hs' : s'.switches = ts) : Heads s' i id ∨ Graph.ContinuesTo s'.code n i id := by
  obtain ⟨j, t', index, hop, ht', hfind, hj⟩ := h
  have hop' : s'.code.op i = .goto j := hc.op_eq hop rfl
  rw [hs] at ht'
  rcases List.mem_cons.mp ht' with rfl | ht'
  · right
    have hid := getElem?_of_find hfind
    rw [hids, List.getElem?_map] at hid
    obtain ⟨case, hcase, rfl⟩ := Option.map_eq_some_iff.mp hid
    have hlt : index < bodies.length := hlength ▸ (List.getElem?_eq_some_iff.mp hcase).1
    have hk := caseLayouts_of_getElem? (t := t') hcase (List.getElem?_eq_getElem hlt)
    rw [← hcases] at hk
    exact ⟨hfirst, hpast, j, hop', _, List.mem_of_getElem? hk, rfl, hj⟩
  · exact .inl ⟨j, t', index, hop', hs' ▸ ht', hfind, hj⟩

theorem Recorded.pop {s1 s'' : State} {ts : List SwitchTargets} {cases : List SwitchCase}
    {bodies : List (Fragment × Fragment)} {n : Graph.SwitchLayout} (h : Recorded s s')
    (hcode : s.code = s1.code) (hlayouts : s.sources.switches = s1.sources.switches)
    (hcontinues : s.sources.continues = s1.sources.continues) (hs' : s'.switches = t :: ts)
    (hids : t.cases = cases.map (·.id))
    (hcases : n.cases = caseLayouts t cases (bodies.map (·.1))) (hlength : bodies.length = cases.length)
    (hfirst : n.first ≤ s.code.size) (hpast : s'.code.size ≤ n.past)
    (hn : Graph.Dispatches s''.code n) (hc : s'.code.Extends s''.code)
    (hs'' : s''.switches = ts) (hlayouts'' : s''.sources.switches = n :: s'.sources.switches)
    (hcontinues'' : s''.sources.continues = s'.sources.continues) : Recorded s1 s'' := by
  constructor
  · rw [← hlayouts, hlayouts'']
    exact List.Subset.trans h.kept (List.subset_cons_self _ _)
  · intro m hm
    rw [hlayouts''] at hm
    rcases List.mem_cons.mp hm with rfl | hm
    · exact .inr hn
    · rw [← hlayouts]
      exact (h.switches m hm).imp_right fun hd => hd.mono hc
  · intro k hk
    rw [hcontinues''] at hk
    rw [← hcontinues, ← hcode, hlayouts'']
    refine (h.continues k hk).imp_right ?_
    rintro ⟨i, hi, hfrom, hto, hk⟩
    refine ⟨i, hi, hfrom, hto.trans_le hc.size, ?_⟩
    rcases hk with hk | ⟨m, hm, hcont⟩
    · exact (hk.pop hs' hids hcases hlength (hfirst.trans hfrom) (hto.trans_le hpast) hc
        hs'').imp_right fun hcont => ⟨n, List.mem_cons_self, hcont⟩
    · exact .inr ⟨m, List.mem_cons_of_mem _ hm, hcont.mono hc⟩

theorem lowers_switchOn (subject : Tree.Expr) {cases : List (SwitchCase × LowerM Fragment)}
    (fs : Finalizers) (hcases : ∀ c ∈ cases, Lowers o true c.2) :
    Lowers o true (switchOn subject cases fs) := by
  intro env s0 γ0 P L p q h0 room
  obtain ⟨p1, room1, room2⟩ := room.split
  obtain ⟨p2, room2, room3⟩ := room2.split
  -- The marks of the cases are between the subject and what goes on after the switch.
  obtain ⟨R, hmono, hR⟩ := Mark.exists_strictMono room2.lt
  have hroom : ∀ a b, Room o true env P a b → Room o true env (P.switch R) a b :=
    fun a b h => { h with }
  have ho : Ordered o env (P.switch R) p1 R p2 :=
    ⟨hroom _ _ (room2.within le_rfl (hR 0).1 (hR 0).2.le),
      fun j k hjk => hroom _ _ (room2.within (hR j).1.le (hmono hjk) (hR k).2.le),
      fun k => hroom _ _ (room2.within (hR k).1.le (hR k).2 le_rfl)⟩
  unfold switchOn
  rw [ends_bind, ends_get]
  refine ends_silent fun v s same => ?_
  dsimp only
  refine stored_head (h0.same same) room1 fun code subjected head s1 γ1 h1 => ?_
  split
  · exact ends_malformed
  rename_i hdefault
  rw [ends_bind, ends_landing, ends_bind, ends_modify]
  refine ends_silent fun _ s3 same3 => ?_
  have h3 : Ready o s3 γ1 (P.switch R) (head :: L) :=
    (h1.ready.withSwitch rfl rfl room2 fun k => (hR k).1).same same3
  have hcode3 : s3.code = s1.code := same3.code
  refine (bodied_caseBodies hcases h3 ho).bind ?_
  rintro bodies s4 ⟨γ4, h4⟩
  have st4 : Step s1 γ1 s4 γ4 := ⟨hcode3 ▸ h4.step.toGrows, same3.nextTry ▸ h4.step.nextTry⟩
  have hlater := h4.later.switches
  rw [switches_of_around same3.around] at hlater
  obtain ⟨t, ts, ⟨hids, -⟩, hts, ht⟩ := List.forall₂_cons_left_iff.mp hlater
  obtain ⟨hi4, hjoins⟩ := h4.ready.popSwitch ht
  have hlength : (bodies.map (·.2)).length = (cases.map (·.1)).length := by
    rw [List.length_map, h4.length]
  have hi4' : Inv o s4 γ4 (P.switch R) (head :: (((cases.map (·.1)).zip (bodies.map (·.2))).map (·.2) ++
      (remaining t 0 ++ (L ++ pending { s4 with switches := ts })))) := by
    rw [List.map_snd_zip hlength.le]
    exact hi4.perm (by grind)
  have hdefault' : ∀ c ∈ (cases.map (·.1)).dropLast, c.isDefault = false := fun c hc => by
    simpa using List.find?_eq_none.mp hdefault c hc
  let layouts := caseLayouts t (cases.map (·.1)) (bodies.map (·.1))
  let start (k : Nat) : Option Nat := layouts[k]?.bind fun case => case.join.or case.body.entry
  refine (chosen_switchTests start (by rw [ht]; rfl) hi4' h4.ready.empty ho (hroom _ _ room3)
    hjoins (h1.spans.step st4) (h1.steady.step h1.spans st4) ?_ ?_ ?_ ?_).bind ?_
  · intro k c hc
    obtain ⟨-, hc2⟩ := List.getElem?_zip_eq_some.mp hc
    rw [List.getElem?_map] at hc2
    obtain ⟨b, hb, hbc⟩ := Option.map_eq_some_iff.mp hc2
    exact hbc ▸ (h4.each k b hb).1
  · intro i c hc hlen
    obtain ⟨hc1, -⟩ := List.getElem?_zip_eq_some.mp hc
    exact h4.joins t (by rw [ht]; rfl) i c.1 hc1 hlen
  · rwa [List.map_fst_zip hlength.ge]
  · intro k c hc
    obtain ⟨hc1, hc2⟩ := List.getElem?_zip_eq_some.mp hc
    rw [List.getElem?_map] at hc2
    obtain ⟨b, hb, hbc⟩ := Option.map_eq_some_iff.mp hc2
    have hk : layouts[k]? = some ⟨c.1, b.1, t.joinOf k⟩ := caseLayouts_of_getElem? hc1 hb
    simp only [start, Nat.zero_add, hk, Option.bind_some]
    rw [← hbc, (h4.each k b hb).2]
  rintro f s5 ⟨γ5, h5, hchosen⟩
  have ht5 : s5.switches = t :: ts := by rw [h5.switches, ht]
  rw [ends_bind, ends_get, ht5, show required (List.head? (t :: ts)) =
    (pure t : LowerM SwitchTargets) from rfl, pure_bind, ends_bind, note, ends_modify]
  refine ends_silent fun _ s6 same6 => ?_
  rw [ends_bind, ends_modify, ends_pure]
  let n : Graph.SwitchLayout :=
    { subject, code, value := subjected.stack.head?.map (·.definition), holder := v, cases := layouts
      whole := f, first := s0.code.size, past := s5.code.size }
  have hdispatches : Graph.Dispatches s5.code n := by
    refine h4.dispatches (by rw [ht]; rfl) rfl rfl h1.entry (fun x hx => ?_) hdefault' hjoins h5.step
      hchosen
    obtain ⟨i, hi, hlink, hop⟩ := h1.store x hx
    exact ⟨i, hi, st4.links x i hlink, st4.extends.op_eq hop rfl⟩
  have hc5 := h5.toCalm
  have hcode6 : s6.code = s5.code := same6.code
  have hb6 : s6.breakables = s5.breakables := (breakables_of_around same6.around :)
  have htail : s6.switches.tail = ts := by
    rw [switches_of_around same6.around]
    exact congrArg List.tail ht5
  have hp : Pass s1 γ1 { s6 with switches := s6.switches.tail } γ5 := by
    refine ⟨?_, ⟨?_, ?_⟩, ?_⟩
    · exact st4.trans ⟨hcode6 ▸ h5.step.toGrows, same6.nextTry.ge.trans' h5.step.nextTry⟩
    · have hb := h4.later.breakables
      rw [breakables_of_around same3.around, ← hc5.breakables] at hb
      rwa [hb6]
    · rw [htail]
      exact hts
    · have hlayouts := layouts_of_around hc5.around
      have hcontinues := continues_of_around hc5.around
      refine h4.recorded.pop (n := n) hcode3 ?_ ?_ ht (hids.trans List.map_map.symm) rfl h4.length
        ?_ h5.step.size (hcode6 ▸ hdispatches) (hcode6 ▸ h5.step.extends) htail ?_ ?_
      · exact (layouts_of_around same3.around :)
      · exact (continues_of_around same3.around :)
      · have hfirst : s0.code.size ≤ s1.code.size := same.code ▸ h1.step.size
        rwa [hcode3]
      · exact (layouts_of_around same6.around).trans (congrArg (n :: ·) hlayouts)
      · exact (continues_of_around same6.around).trans hcontinues
  have hj : joins { s6 with switches := s6.switches.tail } = joins { s4 with switches := ts } := by
    simp only [joins, htail, hb6, hc5.breakables]
  have hbuilt : Built o s1 γ1 P L p q f { s6 with switches := s6.switches.tail } γ5 := by
    refine ⟨hp, ⟨?_, ?_⟩, h5.spans.grow (hcode6 ▸ .refl _ _)⟩
    · rw [pending, hj, htail]
      refine Inv.closeSwitch (R := R) (Inv.congr ?_ same6) ((switches_of_around same6.around).trans ht5)
      exact { h5.inv with regions := { h5.inv.regions with } }
    · exact same6.values.trans (hc5.values.trans h4.ready.empty)
  exact ⟨γ5, hbuilt.after ((same.calm γ0).pass.trans h1.toPass)⟩

end Flowgraph.Lowering.Assembly
