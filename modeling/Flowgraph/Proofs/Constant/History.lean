import Flowgraph.Proofs.Constant.Expression
import Flowgraph.Proofs.Constant.Field

/-! # Constant evaluation without history

What a call of the evaluator gives depends on the table alone, whatever was evaluated
before: it is what unfolding gives, or a failure that says that a field asks for itself
if no depth is enough to unfold it. Evaluating again gives the same value and adds
nothing to the pool.
-/

namespace Flowgraph.Constant

open Symbols (Table)

variable {t : Table}

theorem Related.fieldCode {ask : Nat → EvalM Value}
    (hask : ∀ id w, Related t Same (ask id) (fun n => unfoldField n id) w) (d id : Nat) (w : World) :
    Related t Same (Constant.fieldCode ask d id)
      (fun n => Constant.fieldCode (unfoldField n) n id) w := by
  refine .get fun s r hs hr hw => ?_
  simp only [hs.field, hr.field]
  split
  · exact .throw_failed ⟨rfl, rfl⟩ (not_isCyclic_of _ _ _)
  · exact (Evaluates.all hask d).expr (k := 0) _ .nil

theorem Related.evaluateField (depth id : Nat) (w : World) :
    Related t Same (Constant.evaluateField depth id) (fun n => unfoldField n id) w := by
  induction depth generalizing id w with
  | zero => exact .throw_exhausted
  | succ depth ih => exact .field (.fieldCode ih depth id) w

/-! ## Calls -/

/-- A request to the evaluator from outside. -/
inductive Call
  | field (id : Nat)
  | expression (e : Tree.Expr)

namespace Call

/-- With `maxDepth` these are `foldField` and `fold`. -/
def run (depth : Nat) : Call → EvalM Value
  | field id => evaluateField depth id
  | expression e => evaluate (evaluateField depth) depth [] e

/-- The call without memoization. -/
def unfold : Call → Nat → EvalM Value
  | field id, n => unfoldField n id
  | expression e, n => evaluate (unfoldField n) n [] e

theorem related (c : Call) (depth : Nat) (w : World) :
    Related t Same (c.run depth) c.unfold w := by
  cases c with
  | field id => exact .evaluateField depth id w
  | expression e => exact (Evaluates.all (.evaluateField depth) depth).expr (k := 0) e .nil

/-- The call gives the value of the field: it asks for it or evaluates its initializer. -/
def Evaluates (t : Table) (id : Nat) : Call → Prop
  | field i => i = id
  | expression e => (t.field id).initializer = some e

end Call

/-- The store after some calls, each with a depth, on a new store. -/
def storeAfter (t : Table) (calls : List (Nat × Call)) : Store :=
  calls.foldl (fun s c => (evalFrom (c.2.run c.1) s).2) { table := t }

/-- A store between calls. -/
structure Rests (t : Table) (s : Store) : Prop extends Sound t (fun _ => False) s where
  idle : ∀ id, ¬Computing s id

namespace Rests

variable {s r : Store} {c : Call} {depth : Nat}

theorem start (t : Table) : Rests t { table := t } where
  table := .refl t
  pool := Pool.valid_empty
  value _ _ h := nomatch h
  failure _ _ h := nomatch h
  idle _ h := nomatch h

theorem call (h : Rests t s) (c : Call) (depth : Nat) : Rests t (evalFrom (c.run depth) s).2 ∧
    s.pool.values <+: (evalFrom (c.run depth) s).2.pool.values := by
  have hmeets := c.related depth ⟨s.pool, s.pool⟩ s s (.refl _) h.toSound h.toSteady
  generalize evalFrom (c.run depth) s = result at hmeets ⊢
  have hidle {s' : Store} (hkeeps : Keeps s s') (id : Nat) : ¬Computing s' id := fun hid =>
    h.idle id ((hkeeps.computing id).mp hid)
  cases hmeets with
  | ok _ hs _ hkeeps _ _ => exact ⟨{ hs with idle := hidle hkeeps }, hkeeps.pool⟩
  | failed _ _ _ hs hkeeps => exact ⟨{ hs with idle := hidle hkeeps }, hkeeps.pool⟩
  | blocked _ _ hs hkeeps =>
    have hs' := hs.imp fun i hi => hi.mono fun j hj => h.idle j hj
    exact ⟨{ hs' with idle := hidle hkeeps }, hkeeps.pool⟩
  | crashed _ hs hkeeps => exact ⟨{ hs with idle := hidle hkeeps }, hkeeps.pool⟩
  | exhausted hs hkeeps => exact ⟨{ hs with idle := hidle hkeeps }, hkeeps.pool⟩

theorem calls (h : Rests t s) (calls : List (Nat × Call)) :
    Rests t (calls.foldl (fun s c => (evalFrom (c.2.run c.1) s).2) s) ∧
      s.pool.values <+: (calls.foldl (fun s c => (evalFrom (c.2.run c.1) s).2) s).pool.values := by
  induction calls generalizing s with
  | nil => exact ⟨h, List.prefix_rfl⟩
  | cons c calls ih =>
    obtain ⟨hrests, hpool⟩ := h.call c.2 c.1
    exact ⟨(ih hrests).1, hpool.trans (ih hrests).2⟩

theorem after (t : Table) (calls : List (Nat × Call)) : Rests t (storeAfter t calls) :=
  ((start t).calls calls).1

end Rests

/-! ## What a call gives -/

/-- The same constant, failures of the same kind and code, or two crashes. -/
inductive Resembles : Except Stop Value → Except Stop Value → Prop
  | ok {v v' : Value} : v.bare = v'.bare → Resembles (.ok v) (.ok v')
  | failed {f f' : Failure} : SameKind f f' → Resembles (.error (.failed f)) (.error (.failed f'))
  | crashed : Resembles (.error .crashed) (.error .crashed)

theorem Resembles.ne_exhausted {o q : Except Stop Value} (h : Resembles o q) :
    q ≠ .error .exhausted := by
  rintro rfl
  cases h

/-- What the call means, by unfolding in a new store. -/
inductive Means (t : Table) (c : Call) : Except Stop Value → Prop
  | ends {o q : Except Stop Value} {r : Store} :
      Tends c.unfold { table := t } (q, r) → Resembles o q → Means t c o
  | never {f : Failure} :
      (∀ n, (evalFrom (c.unfold n) { table := t }).1 = .error .exhausted) → IsCyclic f →
      Means t c (.error (.failed f))

theorem Rests.means {s : Store} (h : Rests t s) (c : Call) (depth : Nat)
    (hends : (evalFrom (c.run depth) s).1 ≠ .error .exhausted) :
    Means t c (evalFrom (c.run depth) s).1 := by
  have hnew := (Rests.start t).toSteady
  have hmeets := c.related depth ⟨s.pool, {}⟩ s { table := t } (.refl _) h.toSound hnew
  generalize evalFrom (c.run depth) s = result at hmeets hends ⊢
  cases hmeets with
  | ok hy _ _ _ _ hsame => exact .ends hy (.ok hsame.bare)
  | failed hy hkind _ _ _ => exact .ends hy (.failed hkind)
  | blocked hblocked hcyclic _ _ =>
    refine .never (fun n => ?_) hcyclic
    by_contra hn
    obtain ⟨id, hid, -⟩ := hblocked n hn
    exact h.idle id hid
  | crashed hy _ _ => exact .ends hy .crashed
  | exhausted _ _ => exact absurd rfl hends

theorem Means.field {e : Tree.Expr} {id : Nat} (he : (t.field id).initializer = some e)
    {o : Except Stop Value} (h : Means t (.expression e) o) : Means t (.field id) o := by
  have hrun (n : Nat) : evalFrom (fieldCode (unfoldField n) n id) { table := t } =
      evalFrom (Call.unfold (.expression e) n) { table := t } := by
    unfold fieldCode
    rw [evalFrom_bind, evalFrom_get]
    simp only [he]
    rfl
  cases h with
  | ends hq ho => exact .ends ((hq.congr hrun).succ rfl fun _ => rfl) ho
  | never hn hcyclic =>
    refine .never (fun n => ?_) hcyclic
    cases n with
    | zero => rfl
    | succ n => exact (congrArg Prod.fst (hrun n)).trans (hn n)

theorem Call.Evaluates.means {c : Call} {id : Nat} (hc : c.Evaluates t id) {o : Except Stop Value}
    (h : Means t c o) : Means t (.field id) o := by
  cases c with
  | field i => exact hc ▸ h
  | expression e => exact h.field hc

/-! ## Agreement -/

namespace Value

mutual

theorem render_bare (t : Table) : ∀ v : Value, v.bare.render t = v.render t
  | null _ | bool .. | int .. | double .. | string .. | symbol .. | typeOf .. | function .. => rfl
  | list _ elements => by simp only [bare, render, renderAll_bareAll t elements]
  | map _ keys values => by
    simp only [bare, render, renderAll_bareAll t keys, renderAll_bareAll t values]
  | object _ className fields => by simp only [bare, render, renderAll_bareAll t fields]

theorem renderAll_bareAll (t : Table) : ∀ vs : List Value, renderAll t (bareAll vs) = renderAll t vs
  | [] => rfl
  | v :: rest => by simp only [bareAll, renderAll, render_bare t v, renderAll_bareAll t rest]

end

end Value

/-- The same text, failures of the same kind and code, or two crashes. -/
def Agree (t : Table) : Except Stop Value → Except Stop Value → Prop
  | .ok v, .ok v' => v.render t = v'.render t
  | .error (.failed f), .error (.failed f') => f.kind = f'.kind ∧ f.code = f'.code
  | .error .crashed, .error .crashed => True
  | _, _ => False

theorem Resembles.agree {o o' q : Except Stop Value} (h : Resembles o q) (h' : Resembles o' q) :
    Agree t o o' := by
  cases h with
  | @ok v _ hv =>
    cases h' with
    | @ok v' _ hv' =>
      change v.render t = v'.render t
      rw [← v.render_bare, hv, ← hv', v'.render_bare]
  | failed hf =>
    cases h' with
    | failed hf' => exact ⟨hf.1.trans hf'.1.symm, hf.2.trans hf'.2.symm⟩
  | crashed =>
    cases h' with
    | crashed => trivial

theorem Means.agree {c : Call} {o o' : Except Stop Value} (h : Means t c o) (h' : Means t c o') :
    Agree t o o' := by
  -- What ends with some depth is not exhausted with all.
  have hcontra {o q : Except Stop Value} {r : Store} (hq : Tends c.unfold { table := t } (q, r))
      (ho : Resembles o q)
      (hn : ∀ n, (evalFrom (c.unfold n) { table := t }).1 = .error .exhausted) : False := by
    obtain ⟨N, hN⟩ := hq.reaches
    exact ho.ne_exhausted ((congrArg Prod.fst (hN N (Nat.le_refl N))).symm.trans (hn N))
  cases h with
  | ends hq ho =>
    cases h' with
    | ends hq' ho' =>
      obtain ⟨rfl, -⟩ := Prod.mk.inj (hq.eq hq')
      exact ho.agree ho'
    | never hn _ => exact (hcontra hq ho hn).elim
  | never hn hf =>
    cases h' with
    | ends hq' ho' => exact (hcontra hq' ho' hn).elim
    | never _ hf' => exact ⟨hf.1.trans hf'.1.symm, hf.2.trans hf'.2.symm⟩

/-! ## Evaluating again -/

theorem Pool.Valid.eq_of_prefix {p q : Pool} (hq : q.Valid) (hpq : p.values <+: q.values)
    (hholds : ∀ c, q.Holds c → p.Holds c) : q = p := by
  obtain ⟨rest, hrest⟩ := hpq
  cases rest with
  | nil => cases p; cases q; simp_all
  | cons v rest =>
    -- A further value has a number of its own.
    have hv : v ∈ q.values := hrest ▸ by simp
    obtain ⟨u, hu, hbare⟩ := hholds v.bare ⟨v, hv, rfl⟩
    have huv : u = v := hq.eq_of_bare (hrest ▸ List.mem_append_left _ hu) hv hbare
    have hdistinct := hq.distinct
    rw [← hrest, List.map_append, List.nodup_append] at hdistinct
    exact absurd rfl (hdistinct.2.2 _ (List.mem_map_of_mem hu) _ (by simp [huv]))

theorem Rests.again {s s' r : Store} {c : Call} {depth depth' : Nat} {v : Value} (hs : Rests t s)
    (hr : Rests t r) (hrun : evalFrom (c.run depth) s = (.ok v, s'))
    (hlater : s'.pool.values <+: r.pool.values)
    (hends : (evalFrom (c.run depth') r).1 ≠ .error .exhausted) :
    (evalFrom (c.run depth') r).1 = .ok v ∧ (evalFrom (c.run depth') r).2.pool = r.pool := by
  -- Both runs are compared with unfolding in the later store.
  have hfirst := c.related depth ⟨s.pool, r.pool⟩ s r (.refl _) hs.toSound hr.toSteady
  have hsecond := c.related depth' ⟨r.pool, r.pool⟩ r r (.refl _) hr.toSound hr.toSteady
  rw [hrun] at hfirst
  generalize evalFrom (c.run depth') r = result at hsecond hends ⊢
  cases hfirst with
  | @ok _ u _ r' hy hs' hr' _ hgrows hsame =>
    have hpool : r'.pool = r.pool := hr'.pool.eq_of_prefix hgrows.right fun c hc =>
      (hgrows.rightNew c hc).elim id (·.mono hlater)
    have huv : u = v := hr'.pool.eq_of_bare hsame.right
      (hgrows.right.subset (hlater.subset hsame.left)) hsame.bare.symm
    cases hsecond with
    | @ok v2 _ s2 _ hy2 hs2 _ _ hgrows2 hsame2 =>
      obtain ⟨⟨⟩, rfl⟩ := Prod.mk.inj (hy.eq hy2)
      have hpool2 : s2.pool = r.pool := hs2.pool.eq_of_prefix hgrows2.left fun c hc =>
        (hgrows2.leftNew c hc).elim id fun hc => hpool ▸ hc
      have hv2 : v2 = u := by
        refine hs2.pool.eq_of_bare hsame2.left ?_ hsame2.bare
        rw [hpool2, ← hpool]
        exact hsame2.right
      exact ⟨by rw [hv2, huv], hpool2⟩
    | failed hy2 _ _ _ _ => cases hy.eq hy2
    | blocked hblocked _ _ _ =>
      obtain ⟨N, hN⟩ := hy.reaches
      have hN' : (evalFrom (c.unfold N) r).1 ≠ .error .exhausted := by
        rw [hN N (Nat.le_refl N)]
        exact nofun
      obtain ⟨id, hid, -⟩ := hblocked N hN'
      exact absurd hid (hr.idle id)
    | crashed hy2 _ _ => cases hy.eq hy2
    | exhausted _ _ => exact absurd rfl hends

/-- Evaluation does not depend on what was evaluated before. After any calls, two calls for one
field agree unless they exhaust the depth; and a call that is made again after others gives the
value it gave and leaves the pool as it is. -/
theorem evaluation_independent (t : Table) (before before' : List (Nat × Call))
    (depth depth' : Nat) :
    (∀ (id : Nat) (c c' : Call), c.Evaluates t id → c'.Evaluates t id →
      (evalFrom (c.run depth) (storeAfter t before)).1 ≠ .error .exhausted →
      (evalFrom (c'.run depth') (storeAfter t before')).1 ≠ .error .exhausted →
      Agree t (evalFrom (c.run depth) (storeAfter t before)).1
        (evalFrom (c'.run depth') (storeAfter t before')).1) ∧
    ∀ (c : Call) (between : List (Nat × Call)) (v : Value),
      let store := storeAfter t (before ++ (depth, c) :: between)
      (evalFrom (c.run depth) (storeAfter t before)).1 = .ok v →
      (evalFrom (c.run depth') store).1 ≠ .error .exhausted →
      (evalFrom (c.run depth') store).1 = .ok v ∧
        (evalFrom (c.run depth') store).2.pool = store.pool := by
  constructor
  · intro id c c' hc hc' hends hends'
    exact (hc.means ((Rests.after t before).means c depth hends)).agree
      (hc'.means ((Rests.after t before').means c' depth' hends'))
  · intro c between v store hv hends
    have hfirst : evalFrom (c.run depth) (storeAfter t before) =
        (.ok v, (evalFrom (c.run depth) (storeAfter t before)).2) := Prod.ext hv rfl
    have hstore : store = between.foldl (fun s c => (evalFrom (c.2.run c.1) s).2)
        (evalFrom (c.run depth) (storeAfter t before)).2 := by
      simp [store, storeAfter, List.foldl_append]
    have hlater := (((Rests.after t before).call c depth).1.calls between).2
    exact (Rests.after t before).again (Rests.after t _) hfirst (hstore ▸ hlater) hends

/-- A constant field with an initializer. -/
def constantField (id : Nat) (name : String) (e : Tree.Expr) : Symbols.FieldInfo :=
  { name, isStatic := true, isConst := true,
    decl := some ⟨id, .unknown, name, true, true, false, some e⟩ }

/-- Two constant fields that ask for each other. -/
def mutualFields : Table where
  fields := #[constantField 0 "b" (.staticGet .unknown ⟨"", "c"⟩),
    constantField 1 "c" (.staticGet .unknown ⟨"", "b"⟩)]
  fieldIndex := [(⟨"", "b"⟩, 0), (⟨"", "c"⟩, 1)]

/-- One of two fields that ask for each other fails alike, whichever is evaluated first, and a
list literal keeps its number. -/
theorem evaluation_independent_mutual :
    let seven := Tree.Expr.list .unknown [.int .unknown 7] true
    let store := storeAfter mutualFields [(9, .expression seven), (9, .field 1)]
    Agree mutualFields
        (evalFrom (Call.run 9 (.field 0)) (storeAfter mutualFields [])).1
        (evalFrom (Call.run 9 (.expression (.staticGet .unknown ⟨"", "c"⟩)))
          (storeAfter mutualFields [(9, .field 1)])).1 ∧
      (evalFrom (Call.run 9 (.expression seven)) store).1 = .ok (.list 2 [.int 1 7]) ∧
      (evalFrom (Call.run 9 (.expression seven)) store).2.pool = store.pool := by
  intro seven store
  refine ⟨?_, ?_⟩
  · exact (evaluation_independent mutualFields [] [(9, .field 1)] 9 9).1 0 (.field 0)
      (.expression (.staticGet .unknown ⟨"", "c"⟩)) rfl rfl nofun nofun
  · exact (evaluation_independent mutualFields [] [] 9 9).2 (.expression seven) [(9, .field 1)]
      (.list 2 [.int 1 7]) rfl nofun

end Flowgraph.Constant
