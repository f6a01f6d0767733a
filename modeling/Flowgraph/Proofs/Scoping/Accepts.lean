import Flowgraph.Proofs.Scoping.Captures
import Flowgraph.Proofs.Scoping.Occurs

/-! # The analysis accepts resolved members

In a member whose names are in sight and have numbers of their own, the only thing that the analysis
can refuse is `this` without a receiver. Main statement: for a library that is read without
diagnostics, the analysis of a member fails exactly if `this` occurs in it and it has no receiver.
-/

namespace Flowgraph.Scoping

variable {a b : Analysis} {c c' : Core} {p q : Spot} {mv : Move} {u w : List Move}
  {S S' : List (List Nat)}

/-! ## Scopes of a run -/

/-- The scopes have variables for the numbers in sight. -/
def Lists (a : Analysis) : List Nat → List (List Nat) → Prop :=
  List.Forall₂ fun i l => ∀ d ∈ l, ∃ v ∈ (a.scope i).vars, (a.var v).decl = some d

structure Sighted (u : List Move) (c : Core) (p : Spot) (S : List (List Nat)) : Prop where
  lists : Lists c.analysis (chain p.around) S
  known : ∀ v d, (c.analysis.var v).decl = some d → d ∈ numbers u

theorem Lists.mono {is : List Nat} (h : Lists a is S) (ha : Shape a) (hx : Extends a b) :
    Lists b is S := by
  refine List.Forall₂.imp (fun i l hl d hd => ?_) h
  obtain ⟨v, hv, hdecl⟩ := hl d hd
  have hi : i < a.scopes.size := by
    by_contra hi
    simp [Analysis.scope_of_le (Nat.le_of_not_lt hi)] at hv
  exact ⟨v, (hx.scope i hi).2.2.subset hv, (hx.var v (ha.listed i v hv).1).1.trans hdecl⟩

theorem Lists.tail {is : List Nat} {i : Nat} (h : Lists a (i :: is) S) : Lists a is S.tail := by
  cases h with
  | cons _ h => exact h

theorem Lists.push {is : List Nat} (h : Lists a is S) (i : Nat) : Lists a (i :: is) ([] :: S) :=
  .cons (by simp) h

theorem known_append (h : ∀ v d, (a.var v).decl = some d → d ∈ numbers u)
    (hdecl : ∀ v, (b.var v).decl = (a.var v).decl) (mv : Move) (v d : Nat)
    (hd : (b.var v).decl = some d) : d ∈ numbers (u ++ [mv]) := by
  rw [numbers_append]
  exact List.mem_append_left _ (h v d ((hdecl v).symm.trans hd))

theorem decl_addReceiver (a : Analysis) (i f v : Nat) :
    ((a.addReceiver i f).var v).decl = (a.var v).decl := by
  rw [show (a.addReceiver i f).var v = (a.addListed "this" none i f).var v from rfl, a.var_addListed]
  split
  · next hv => rw [hv, Analysis.var_of_le (Nat.le_refl _), decl_default]
  · rfl

theorem see_opens {node : Option Nat} (h : mv.opens = some node) : mv.see S = some ([] :: S) := by
  cases mv <;> first | rfl | cases h

theorem Sighted.declare (h : Sighted u c p S) (hc : Agrees c p) {d : Tree.Declaration} {f i : Nat}
    {b : Analysis} (hmv : mv = .declare d ∨ mv = .parameter d) (hp : p.around ≠ [])
    (hf : c.layout = some f) (hi : c.scope = some i) (hnew : ∀ v, (c.analysis.var v).decl ≠ some d.id)
    (hab : Assists f (c.analysis.addListed d.name (some d.id) i f) b) (hS : mv.see S = some S') :
    Sighted (u ++ [mv]) { c with analysis := b } p S' := by
  have hsee (l : List Nat) (S : List (List Nat)) : mv.see (l :: S) = some ((d.id :: l) :: S) := by
    obtain rfl | rfl := hmv <;> rfl
  have hnumbers : numbers [mv] = [d.id] := by
    obtain rfl | rfl := hmv <;> rfl
  obtain ⟨o, rest, ho⟩ := List.exists_cons_of_ne_nil hp
  obtain ⟨hlayout, hlt, ⟨j, hj, hjs, hjf⟩, _⟩ := hc.open ho
  cases hf.symm.trans hlayout
  cases hi.symm.trans hj
  have hdecl : ∀ e, some d.id = some e → ∀ v, (c.analysis.var v).decl ≠ some e := by
    rintro _ ⟨⟩
    exact hnew
  have hlisted := hc.addListed d.name hjs hjf hlt hdecl
  have hvar (v : Nat) := c.analysis.var_addListed d.name (some d.id) i o.function v
  have hscope := c.analysis.scope_addListed d.name (some d.id) i o.function i
  rw [if_pos ⟨rfl, hjs⟩] at hscope
  have hlists := h.lists.mono hc.shape (extends_addListed c.analysis d.name (some d.id) i o.function)
  constructor
  case lists =>
    refine Lists.mono ?_ hlisted.shape hab.extends
    have hhead := hi.symm.trans hc.scope
    generalize chain p.around = is at hlists hhead
    cases hlists with
    | nil => cases hhead
    | @cons j l is S hl hS0 =>
      cases hhead
      rw [hsee] at hS
      cases hS
      refine .cons (List.forall_mem_cons.mpr ⟨⟨c.analysis.vars.size, ?_, ?_⟩, hl⟩) hS0
      · simp [hscope]
      · rw [hvar, if_pos rfl]
  case known =>
    intro v e he
    rw [numbers_append, hnumbers]
    rw [hab.keepsMarks.decl, hvar] at he
    split at he
    · cases he
      simp
    · exact List.mem_append_left _ (h.known v e he)

theorem Sighted.effect (h : Sighted u c p S) (hc : Agrees c p) (he : Effect c mv c')
    (hq : p.next mv = some q) (hS : mv.see S = some S') : Sighted (u ++ [mv]) c' q S' := by
  have hlists {b : Analysis} (hx : Extends c.analysis b) := h.lists.mono hc.shape hx
  cases he with
  | @opens _ l sc b hmv _ _ hlt _ _ _ hsf hab =>
    cases Spot.next_opens hmv hq
    cases (see_opens hmv).symm.trans hS
    have hk := ((keeps_addLayout c.analysis hlt).trans (keeps_addScope _ hsf)).trans hab.keepsMarks
    exact ⟨(hlists hk.grows).push p.scopes, known_append h.known hk.decl mv⟩
  | @finish i outer rest closures hi ho =>
    obtain ⟨functions, scopes, hasThis, _ | ⟨⟨f, e, _ | _⟩, around⟩⟩ := p <;> cases hq
    cases hS
    have hk := keeps_closures c.analysis closures
    exact ⟨(hlists hk.grows).tail, known_append h.known hk.decl .finish⟩
  | @enter kind node place sc f hf hsp hsf hsv hforced =>
    obtain ⟨functions, scopes, hasThis, _ | ⟨⟨g, e, inner⟩, around⟩⟩ := p <;> cases hq
    cases hS
    have hk := keeps_addScope c.analysis hforced
    exact ⟨(hlists hk.grows).push scopes, known_append h.known hk.decl _⟩
  | @exit i hi =>
    obtain ⟨functions, scopes, hasThis, _ | ⟨⟨g, e, _ | ⟨j, inner⟩⟩, around⟩⟩ := p <;> cases hq
    cases hS
    exact ⟨h.lists.tail, known_append h.known (fun _ => rfl) .exit⟩
  | @declare d f i b _ hmv hf hi hnew hab =>
    have hplain : mv.isPlain = true := by
      obtain rfl | rfl := hmv <;> rfl
    obtain ⟨rfl, o, rest, ho⟩ := Spot.next_plain hplain hq
    exact h.declare hc hmv (ho ▸ List.cons_ne_nil _ _) hf hi hnew hab hS
  | @receiver f i hf hi =>
    obtain ⟨functions, scopes, _ | _, _ | ⟨⟨_ | g, e, inner⟩, _ | _⟩⟩ := p <;> cases hq
    cases hS
    have hx : Extends c.analysis (c.analysis.addReceiver i f) :=
      (extends_addListed ..).trans (extends_editLayout _ f fun _ => ⟨rfl, rfl, rfl⟩)
    exact ⟨hlists hx, known_append h.known (decl_addReceiver c.analysis i f) .receiver⟩
  | @mention place ref v hv =>
    obtain ⟨rfl, _⟩ := Spot.next_plain rfl hq
    have halike := alike_capture c.analysis c.layout v
    have hx := halike.extends (layouts_capture c.analysis c.layout v)
    simp only [Move.see, Option.ite_none_right_eq_some] at hS
    cases hS.2
    exact ⟨hlists hx, known_append h.known (fun v => (halike.var v).1) _⟩
  | @this place v hv =>
    obtain ⟨rfl, _⟩ := Spot.next_plain rfl hq
    have halike := alike_capture c.analysis c.layout v
    have hx := halike.extends (layouts_capture c.analysis c.layout v)
    cases hS
    exact ⟨hlists hx, known_append h.known (fun v => (halike.var v).1) _⟩
  | @help ask f b hf hab =>
    obtain ⟨rfl, _⟩ := Spot.next_plain rfl hq
    cases hS
    exact ⟨hlists hab.extends, known_append h.known hab.keepsMarks.decl _⟩
  | count =>
    obtain ⟨rfl, _⟩ := Spot.next_plain rfl hq
    cases hS
    exact ⟨h.lists, known_append h.known (fun _ => rfl) _⟩
  | request =>
    obtain ⟨rfl, _⟩ := Spot.next_plain rfl hq
    cases hS
    exact ⟨h.lists, known_append h.known (fun _ => rfl) _⟩

/-! ## Progress -/

/-- Each scope lies in the next. -/
def Linked (a : Analysis) : List Nat → Prop
  | [] => True
  | i :: is => (a.scope i).parent = is.head? ∧ Linked a is

theorem Nested.linked {f : Nat} {is : List Nat} (his : Linked a is) :
    ∀ {l : List Nat}, Nested a f is.head? l → Linked a (l ++ is)
  | [], _ => his
  | i :: l, ⟨_, _, hp, hl⟩ => ⟨by rw [hp]; cases l <;> simp, hl.linked his⟩

theorem Held.linked : ∀ {around : List Open}, Held a around → Linked a (chain around)
  | [], _ => trivial
  | _ :: _, ⟨_, _, _, hn, hrest⟩ => hn.linked hrest.linked

theorem exists_lookupFrom (ha : Shape a) {d : Nat} : ∀ {is : List Nat} {limit : Nat}, Linked a is →
    (∀ i, is.head? = some i → i < limit) →
    (∃ i ∈ is, ∃ v ∈ (a.scope i).vars, (a.var v).decl = some d) →
    ∃ v, a.lookupFrom d limit is.head? = some v
  | [], _, _, _, h => by simp at h
  | i :: is, 0, _, hlimit, _ => absurd (hlimit i rfl) (Nat.not_lt_zero i)
  | i :: is, limit + 1, ⟨hp, his⟩, hlimit, h => by
    rw [List.head?_cons, Analysis.lookupFrom]
    cases hfind : (a.scope i).vars.find? fun v => (a.var v).decl = some d with
    | some v => exact ⟨v, rfl⟩
    | none =>
      have hnone := List.find?_eq_none.mp hfind
      obtain ⟨j, hj, v, hv, hd⟩ := h
      rcases List.mem_cons.mp hj with rfl | hj
      · exact absurd (decide_eq_true hd) (hnone v hv)
      · rw [hp]
        refine exists_lookupFrom ha his (fun k hk => ?_) ⟨j, hj, v, hv, hd⟩
        have hki := ha.parent_lt i k (hp.trans hk)
        have hi := hlimit i rfl
        omega

theorem Sighted.lookup (h : Sighted u c p S) (hc : Agrees c p) {d : Nat} (hd : d ∈ S.flatten) :
    ∃ v, c.analysis.lookup c.scope d = some v ∧ (c.analysis.var v).decl = some d := by
  have hlisted : ∃ i ∈ chain p.around, ∃ v ∈ (c.analysis.scope i).vars,
      (c.analysis.var v).decl = some d := by
    obtain ⟨l, hl, hd⟩ := List.mem_flatten.mp hd
    obtain ⟨k, hk, rfl⟩ := List.mem_iff_getElem.mp hl
    have hlen := h.lists.length_eq
    refine ⟨(chain p.around)[k], List.getElem_mem _, ?_⟩
    exact List.Forall₂.get h.lists (hlen ▸ hk) hk d hd
  have hlimit (i : Nat) (hi : (chain p.around).head? = some i) : i < c.analysis.scopes.size :=
    hc.scope_lt (hc.scope.trans hi)
  obtain ⟨v, hv⟩ := exists_lookupFrom hc.shape hc.held.linked hlimit hlisted
  rw [← hc.scope] at hv
  obtain ⟨_, _, hdecl⟩ := lookupFrom_listed _ _ _ _ hv
  exact ⟨v, hv, hdecl⟩

def noReceiver (place : Position) : Failure :=
  .of .malformed place "'this' used in a member without a receiver"

/-- A move whose names are in sight and new fails at `this` without a receiver only. -/
theorem step_progress {M : Machine} (hc : Agrees M.core p) (hs : Sighted u M.core p S)
    (hq : p.next mv = some q) (hS : mv.see S = some S') (hnew : ∀ d ∈ mv.number?, d ∉ numbers u) :
    (∃ M', step M mv = .ok M') ∨
      ∃ place, mv = .this place ∧ p.hasThis = false ∧ step M mv = .error (noReceiver place) := by
  have hopen := hc.inside hq
  have hfirst : M.state.analysis.firstVariable = 0 := hc.shape.first.1
  have hundeclared (d : Tree.Declaration) (hd : mv.number? = some d.id) :
      (M.state.analysis.variableOf d.id).isSome = false := by
    rw [Option.isSome_eq_false_iff, Option.isNone_iff_eq_none,
      Analysis.variableOf_eq_none hfirst]
    exact fun v hv => hnew d.id hd (hs.known v d.id hv)
  have hinner (hmv : mv.isInner = true) (h : ∃ t, result mv.act M.state = .ok ((), t)) :
      ∃ M', step M mv = .ok M' := by
    obtain ⟨t, ht⟩ := h
    exact ⟨⟨t, M.saved⟩, by rw [step_inner hmv, ht]; rfl⟩
  cases mv with
  | begin node kind scopeNode place name =>
    obtain ⟨b, l, sc, hb, _⟩ := exists_result_beginFunction M.state node kind scopeNode place name
    exact .inl ⟨_, by simp only [step, bind, Except.bind, hb, pure, Except.pure]; rfl⟩
  | nest f name =>
    obtain ⟨name', n, hname⟩ : ∃ name' n, result (closureName name) M.state =
        .ok (name', { M.state with closureCount := n }) := ⟨_, _, rfl⟩
    obtain ⟨b, l, sc, hb, _⟩ := exists_result_beginFunction { M.state with closureCount := n } (some f.id)
      .function f.id f.place name'
    exact .inl ⟨_, by simp only [step, hname, bind, Except.bind, hb, pure, Except.pure]; rfl⟩
  | finish =>
    obtain ⟨f, i, ⟨layout, depths, closure⟩, rest, _, hi, hsaved⟩ := hopen rfl
    obtain ⟨⟨_, _, _, _, _, _, _⟩, _⟩ := M
    cases hsaved
    cases hi
    cases closure with
    | none => exact .inl ⟨_, rfl⟩
    | some c => exact .inl ⟨_, rfl⟩
  | enter kind node place => exact .inl ⟨_, rfl⟩
  | exit =>
    obtain ⟨f, i, _, _, _, hi, _⟩ := hopen rfl
    obtain ⟨⟨_, _, _, _, _, _, _⟩, _⟩ := M
    cases hi
    exact .inl ⟨_, rfl⟩
  | declare d =>
    obtain ⟨f, i, _, _, hf, hi, _⟩ := hopen rfl
    refine .inl (hinner rfl ?_)
    rw [Move.act, result_bind, result_declare hf hi, hundeclared d rfl]
    exact ⟨_, rfl⟩
  | parameter d =>
    obtain ⟨f, i, _, _, hf, hi, _⟩ := hopen rfl
    refine .inl (hinner rfl ?_)
    rw [Move.act, declareParameter, result_bind, result_declare hf hi, hundeclared d rfl]
    exact ⟨_, result_changeLayout (s := { M.state with
      analysis := M.state.analysis.addListed d.name (some d.id) i f }) hf _⟩
  | receiver =>
    obtain ⟨f, i, _, _, hf, hi, _⟩ := hopen rfl
    refine .inl (hinner rfl ?_)
    rw [Move.act, declareThis, result_bind, result_declareIn hf hi]
    exact ⟨_, result_changeLayout (s := { M.state with
      analysis := M.state.analysis.addListed "this" none i f }) hf _⟩
  | mention place ref =>
    simp only [Move.see, Option.ite_none_right_eq_some] at hS
    obtain ⟨v, hv, hdecl⟩ := hs.lookup hc hS.1
    have hknown : (M.state.analysis.variableOf ref.id).isNone = false := by
      rw [Option.isNone_eq_false_iff, Option.isSome_iff_ne_none, ne_eq,
        Analysis.variableOf_eq_none hfirst]
      exact fun h => h v hdecl
    refine .inl (hinner rfl ?_)
    rw [Move.act, result_use, show M.state.analysis.lookup M.state.scope ref.id = some v from hv]
    simp only [hknown, Bool.false_and, Bool.false_eq_true, if_false]
    exact ⟨_, rfl⟩
  | this place =>
    cases hthis : M.state.analysis.member.this with
    | some v =>
      refine .inl (hinner rfl ?_)
      rw [Move.act, result_useThis, hthis]
      exact ⟨_, rfl⟩
    | none =>
      refine .inr ⟨place, rfl, ?_, ?_⟩
      · rw [← hc.this, show M.core.analysis.member.this = none from hthis]
        rfl
      · rw [step_inner rfl, Move.act, result_useThis, hthis]
        rfl
  | count change => exact .inl ⟨_, rfl⟩
  | help ask =>
    obtain ⟨f, i, _, _, hf, _⟩ := hopen rfl
    obtain ⟨b, hb, _⟩ := assisting_ask ask M.state f hf
    exact .inl (hinner rfl ⟨_, hb⟩)
  | request optional => exact .inl ⟨_, rfl⟩

theorem Spot.hasThis_next (h : p.hasThis = true) (hq : p.next mv = some q) : q.hasThis = true := by
  cases mv with
  | begin | nest =>
    rw [Spot.next_opens rfl hq]
    exact h
  | finish =>
    obtain ⟨_, _, _, _ | ⟨⟨_, _, _ | _⟩, _⟩⟩ := p <;> cases hq
    exact h
  | enter =>
    obtain ⟨_, _, _, _ | _⟩ := p <;> cases hq
    exact h
  | exit =>
    obtain ⟨_, _, _, _ | ⟨⟨_, _, _ | _⟩, _⟩⟩ := p <;> cases hq
    exact h
  | receiver =>
    obtain ⟨_, _, _ | _, _ | ⟨⟨_ | _, _, _⟩, _ | _⟩⟩ := p <;> cases hq
    rfl
  | _ =>
    rw [(Spot.next_plain rfl hq).1]
    exact h

theorem perform_progress : ∀ {w u : List Move} {M : Machine} {p q : Spot} {S S' : List (List Nat)},
    Agrees M.core p → Sighted u M.core p S → p.follow w = some q → see S w = some S' →
    (numbers (u ++ w)).Nodup →
    (∃ M', perform M w = .ok M' ∧ Agrees M'.core q ∧ Sighted (u ++ w) M'.core q S') ∨
      p.hasThis = false ∧ ∃ place, .this place ∈ w ∧ perform M w = .error (noReceiver place)
  | [], u, M, p, q, S, S', hc, hs, hq, hS, _ => by
    cases hq
    cases hS
    exact .inl ⟨M, rfl, hc, by rwa [List.append_nil]⟩
  | mv :: w, u, M, p, q, S, S', hc, hs, hq, hS, hnodup => by
    obtain ⟨r, hr, hq⟩ := Option.bind_eq_some_iff.mp hq
    obtain ⟨T, hT, hS⟩ := Option.bind_eq_some_iff.mp hS
    have hnew (d : Nat) (hd : d ∈ mv.number?) : d ∉ numbers u := by
      rw [numbers_append, numbers_cons, Option.mem_def.mp hd, List.nodup_append] at hnodup
      exact fun hmem => hnodup.2.2 d hmem d (by simp) rfl
    rw [perform_cons]
    rcases step_progress hc hs hr hT hnew with ⟨N, hN⟩ | ⟨place, rfl, hthis, herror⟩
    · obtain ⟨he, hcN⟩ := hc.step hr hN
      rw [hN]
      have hrest := perform_progress hcN (hs.effect hc he hr hT) hq hS (by simpa using hnodup)
      rcases hrest with hok | ⟨hthis, place, hmem, herror⟩
      · exact .inl (by simpa [Except.bind] using hok)
      · refine .inr ⟨?_, place, List.mem_cons_of_mem _ hmem, herror⟩
        exact Bool.eq_false_iff.mpr fun hp => Bool.eq_false_iff.mp hthis (Spot.hasThis_next hp hr)
    · rw [herror]
      exact .inr ⟨hthis, place, by simp, rfl⟩

/-! ## Members -/

variable {W : Resolve.Mark → Prop} {l : Tree.Library} {m : Tree.Member}

theorem sighted_start : Sighted [] (Machine.core { state := {} }) {} [] where
  lists := .nil
  known v d h := by simp [Machine.core, Analysis.var] at h

theorem see_begin (m : Tree.Member) : see [] (beginMove m :: receiverMoves m) = some [[]] := by
  have hbegin : (beginMove m).see [] = some [[]] := by
    unfold beginMove
    split
    · split <;> rfl
    · rfl
    · rfl
  rw [see, List.foldlM_cons, hbegin, receiverMoves]
  cases hasReceiver m <;> rfl

theorem this_not_mem_begin (m : Tree.Member) (place : Position) :
    .this place ∉ beginMove m :: receiverMoves m := by
  unfold beginMove receiverMoves
  split
  · split <;> split <;> simp
  · split <;> simp
  · split <;> simp

theorem memberMoves_eq (m : Tree.Member) :
    memberMoves m = (beginMove m :: receiverMoves m) ++ (insideMoves m ++ [.finish]) := by
  rw [memberMoves, List.append_assoc, List.cons_append]

theorem analyze_progress (hlexical : ∀ m ∈ l.members, Resolve.MemberLexical W m)
    (hnumbers : (Resolve.ids l).Nodup) (hm : m ∈ l.members) :
    (∃ a, (analyze m).result = .ok a) ∨ hasReceiver m = false ∧
      ∃ place, .this place ∈ insideMoves m ∧ (analyze m).result = .error (noReceiver place) := by
  have hfunction : hasFunction m = true := by
    cases m with
    | procedure owner p =>
      obtain ⟨f, hf, _⟩ := hlexical _ hm
      simp [hasFunction, hf]
    | field | constructor => rfl
  have hnodup := Resolve.nodup_memberMoves hnumbers hm
  rw [memberMoves_eq] at hnodup
  have hbegin := perform_progress agrees_start sighted_start (Spot.follow_begin m) (see_begin m)
    (by simpa using hnodup.sublist (by simp))
  obtain ⟨M, hM, hc, hs⟩ := hbegin.resolve_right <| by
    rintro ⟨_, place, hmem, _⟩
    exact this_not_mem_begin m place hmem
  obtain ⟨j, k, hinside⟩ := Spot.follow_inside m
  obtain ⟨l', hsee, _⟩ := clear_inside hlexical hm [] [] (by simp [InSight])
  have hsee : see [[]] (insideMoves m ++ [.finish]) = some [] := by
    rw [see_append, hsee]
    rfl
  rw [analyze_result hfunction, memberMoves_eq, perform_append, hM]
  rcases perform_progress hc hs hinside hsee hnodup with ⟨M', hM', _⟩ | ⟨hthis, place, hmem, herror⟩
  · refine .inl ⟨M'.state.analysis.allocate none, ?_⟩
    rw [Except.bind, hM']
    rfl
  · refine .inr ⟨hthis, place, by simpa using hmem, ?_⟩
    rw [Except.bind, herror]
    rfl

theorem hasReceiver_of_this {place : Position} (hthis : .this place ∈ memberMoves m)
    (h : (analyze m).result = .ok a) : hasReceiver m = true := by
  obtain ⟨M, hM, _⟩ := exists_perform_of_analyze h
  obtain ⟨j, k, hp⟩ := Spot.follow_member m
  have hrun := run_invariant (I := fun u _ p => (∃ place, .this place ∈ u) → p.hasThis = true) (u := [])
    (fun {u mv c c' p q} hI hc he hq => ?_) (by simp) agrees_start hM hp
  · exact hrun.1 ⟨place, hthis⟩
  · rintro ⟨place, hmem⟩
    rcases List.mem_append.mp hmem with hmem | hmem
    · exact Spot.hasThis_next (hI ⟨place, hmem⟩) hq
    · cases List.mem_singleton.mp hmem
      cases he with
      | opens hmv => cases hmv
      | declare hmv => rcases hmv with hmv | hmv <;> cases hmv
      | this hv =>
        cases (Spot.next_plain rfl hq).1
        rw [← hc.this, hv]
        rfl

/-! ## Libraries -/

theorem resolved_of_reading {first : Nat} {file source : String}
    (h : Reading.ofSourceFrom first file source = ⟨some l, []⟩) :
    ∃ p, (∀ m ∈ l.members, Resolve.MemberLexical (· ∈ Resolve.programMarks p) m) ∧
      (Resolve.ids l).Nodup := by
  unfold Reading.ofSourceFrom at h
  cases hp : Surface.parse file source with
  | error d => simp [hp] at h
  | ok p =>
    rw [hp] at h
    obtain ⟨hl, hd⟩ := Reading.mk.inj h
    cases hl
    exact ⟨p, (Resolve.makes_resolveProgram p).start hd⟩

/-- The analysis of a member of a library without diagnostics fails if and only if the member has no
receiver and `this` occurs in it. It complains of nothing else. -/
theorem analyze_accepts {first : Nat} {file source : String}
    (h : Reading.ofSourceFrom first file source = ⟨some l, []⟩) (hm : m ∈ l.members) :
    ((∃ f, (analyze m).result = .error f) ↔
      hasReceiver m = false ∧ ∃ d place, (d, .expr (.this place)) ∈ memberWalk m) ∧
    ∀ f, (analyze m).result = .error f → ∃ d place, (d, .expr (.this place)) ∈ memberWalk m ∧
      f = .of .malformed place "'this' used in a member without a receiver" := by
  obtain ⟨p, hlexical, hnumbers⟩ := resolved_of_reading h
  have hoccurs (hreceiver : hasReceiver m = false) (place : Position) :
      (∃ d, (d, .expr (.this place)) ∈ memberWalk m) ↔ .this place ∈ insideMoves m := by
    rw [← mem_visitedThis, ← mem_thisPlaces, occurs_member (hlexical m hm) hreceiver]
  have hfails (f : Failure) (hf : (analyze m).result = .error f) : hasReceiver m = false ∧
      ∃ d place, (d, .expr (.this place)) ∈ memberWalk m ∧ f = noReceiver place := by
    obtain ⟨a, ha⟩ | ⟨hreceiver, place, hthis, herror⟩ := analyze_progress hlexical hnumbers hm
    · cases hf.symm.trans ha
    · cases hf.symm.trans herror
      obtain ⟨d, hd⟩ := (hoccurs hreceiver place).mpr hthis
      exact ⟨hreceiver, d, place, hd, rfl⟩
  refine ⟨⟨?_, ?_⟩, fun f hf => (hfails f hf).2⟩
  · rintro ⟨f, hf⟩
    obtain ⟨hreceiver, d, place, hd, _⟩ := hfails f hf
    exact ⟨hreceiver, d, place, hd⟩
  · rintro ⟨hreceiver, d, place, hd⟩
    cases hresult : (analyze m).result with
    | error f => exact ⟨f, rfl⟩
    | ok a =>
      have hthis := (hoccurs hreceiver place).mp ⟨d, hd⟩
      have hmem : .this place ∈ memberMoves m := by simp [memberMoves, hthis]
      rw [hasReceiver_of_this hmem hresult] at hreceiver
      cases hreceiver

section Example

def borrowing : String :=
  "library t; class C { var n = this; static fun f() { fun g([x = this]) => x; return g; } }"

theorem exists_reading {r : Reading} {p : Tree.Library → Bool}
    (h : (r.diagnostics.isEmpty && r.library?.any p) = true) :
    ∃ l, r = ⟨some l, []⟩ ∧ p l = true := by
  obtain ⟨library?, diagnostics⟩ := r
  rw [Bool.and_eq_true, List.isEmpty_iff] at h
  obtain ⟨rfl, h⟩ := h
  cases library? with
  | none => cases h
  | some l => exact ⟨l, rfl, h⟩

theorem borrowing_refused : ∃ l, Reading.ofSourceFrom 0 "t" borrowing = ⟨some l, []⟩ ∧
    ∃ m ∈ l.members, ∃ f, (analyze m).result = .error f := by
  obtain ⟨l, hl, hany⟩ := exists_reading (r := Reading.ofSourceFrom 0 "t" borrowing)
    (p := fun l => l.members.any fun m => !hasReceiver m && !(visitedThis (memberWalk m)).isEmpty)
    (by decide +kernel)
  obtain ⟨m, hm, hthis⟩ := List.any_eq_true.mp hany
  rw [Bool.and_eq_true, Bool.not_eq_true', Bool.not_eq_true', List.isEmpty_eq_false_iff] at hthis
  obtain ⟨place, hplace⟩ := List.exists_mem_of_ne_nil _ hthis.2
  obtain ⟨d, hd⟩ := mem_visitedThis.mp hplace
  exact ⟨l, hl, m, hm, (analyze_accepts hl hm).1.mpr ⟨hthis.1, d, place, hd⟩⟩

end Example

end Flowgraph.Scoping
