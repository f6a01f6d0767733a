import Flowgraph.Proofs.Scoping.Shape

/-! # What a move does

Each move changes the analysis in one of a few ways. Whatever is kept along a run is kept by these.
-/

namespace Flowgraph.Scoping

variable {a b c : Analysis}

/-! ## Helper variables and notes -/

/-- A change of a function that only notes variables. -/
def Notes (change : Layout → Layout) : Prop :=
  ∀ l, (change l).node = l.node ∧ (change l).scope = l.scope ∧ (change l).parent = l.parent ∧
    (change l).slots = l.slots ∧ (change l).this = l.this ∧ (change l).depth = l.depth

/-- Helper variables are added to a function and noted. -/
inductive Assists (f : Nat) (a : Analysis) : Analysis → Prop
  | refl : Assists f a a
  | helper {b : Analysis} {name : String} : Assists f a b →
      Assists f a (b.addVariable name none (b.layout f).scope f)
  | note {b : Analysis} {change : Layout → Layout} : Assists f a b → Notes change →
      Assists f a (b.editLayout f change)

theorem Assists.trans {f : Nat} (hab : Assists f a b) (hbc : Assists f b c) : Assists f a c := by
  induction hbc with
  | refl => exact hab
  | helper _ ih => exact .helper ih
  | note _ hc ih => exact .note ih hc

/-! ## What the computations do -/

section Results

variable {s : State} {f i : Nat}

theorem result_synthetic (hf : s.layout = some f) (name : String) :
    result (synthetic name) s = .ok (s.analysis.vars.size, { s with
      analysis := s.analysis.addVariable name none (s.analysis.layout f).scope f }) := by
  obtain ⟨_, _, _, _, _, _, _⟩ := s
  cases hf
  rfl

theorem result_changeLayout (hf : s.layout = some f) (change : Layout → Layout) :
    result (changeLayout change) s =
      .ok ((), { s with analysis := s.analysis.editLayout f change }) := by
  obtain ⟨_, _, _, _, _, _, _⟩ := s
  cases hf
  rfl

theorem result_declareIn (hf : s.layout = some f) (hi : s.scope = some i) (name : String)
    (decl : Option Nat) :
    result (declareIn name decl) s =
      .ok (s.analysis.vars.size, { s with analysis := s.analysis.addListed name decl i f }) := by
  obtain ⟨_, _, _, _, _, _, _⟩ := s
  cases hf
  cases hi
  rfl

theorem result_declare (hf : s.layout = some f) (hi : s.scope = some i) (d : Tree.Declaration) :
    result (declare d) s = if (s.analysis.variableOf d.id).isSome then
        .error (.of .malformed d.place ("variable '" ++ d.name ++ "' is declared twice"))
      else .ok (s.analysis.vars.size,
        { s with analysis := s.analysis.addListed d.name (some d.id) i f }) := by
  rw [declare, result_bind]
  show result (do
    if (s.analysis.variableOf d.id).isSome then
      malformed d.place ("variable '" ++ d.name ++ "' is declared twice")
    declareIn d.name (some d.id)) s = _
  split
  · rfl
  · exact result_declareIn hf hi d.name (some d.id)

theorem result_get_bind {β : Type} (k : State → ScopeM β) (s : State) :
    result (get >>= k) s = result (k s) s := by
  rw [result_bind]
  rfl

end Results

/-! ## Computations that assist -/

/-- The computation does nothing but add helper variables to its function. -/
def Assisting (m : ScopeM Unit) : Prop := ∀ s f, s.layout = some f →
  ∃ b, result m s = .ok ((), { s with analysis := b }) ∧ Assists f s.analysis b

theorem assisting_pure : Assisting (pure ()) := fun s _ _ => ⟨s.analysis, rfl, .refl⟩

theorem Assisting.seq {m n : ScopeM Unit} (hm : Assisting m) (hn : Assisting n) :
    Assisting (m >>= fun _ => n) := by
  intro s f hf
  obtain ⟨b, hb, hab⟩ := hm s f hf
  obtain ⟨c, hc, hbc⟩ := hn { s with analysis := b } f hf
  exact ⟨c, by rw [result_bind, hb]; exact hc, hab.trans hbc⟩

theorem Assisting.get {k : State → ScopeM Unit} (hk : ∀ s, Assisting (k s)) :
    Assisting (get >>= k) := by
  intro s f hf
  rw [result_get_bind]
  exact hk s s f hf

theorem Assisting.helper {k : Nat → ScopeM Unit} (name : String) (hk : ∀ v, Assisting (k v)) :
    Assisting (synthetic name >>= k) := by
  intro s f hf
  rw [result_bind, result_synthetic hf]
  obtain ⟨c, hc, hbc⟩ := hk s.analysis.vars.size { s with
    analysis := s.analysis.addVariable name none (s.analysis.layout f).scope f } f hf
  exact ⟨c, hc, (Assists.refl.helper).trans hbc⟩

theorem assisting_changeLayout {change : Layout → Layout} (h : Notes change) :
    Assisting (changeLayout change) :=
  fun _ _ hf => ⟨_, result_changeLayout hf change, Assists.refl.note h⟩

theorem assisting_helper {vars : Layout → List Nat} {put : Layout → List Nat → Layout}
    (hput : ∀ k : Layout → List Nat, Notes fun l => put l (k l)) (name : String) (depth : Nat) :
    Assisting (helper vars put name depth) := by
  refine .get fun s => ?_
  dsimp only
  split
  · exact .helper _ fun v => assisting_changeLayout (hput _)
  · exact assisting_pure

theorem assisting_ask (h : Help) : Assisting h.ask := by
  cases h with
  | switch => exact .get fun s => assisting_helper (fun _ _ => ⟨rfl, rfl, rfl, rfl, rfl, rfl⟩) _ _
  | attempt => exact .get fun s => assisting_helper (fun _ _ => ⟨rfl, rfl, rfl, rfl, rfl, rfl⟩) _ _
  | iterator => exact .get fun s => assisting_helper (fun _ _ => ⟨rfl, rfl, rfl, rfl, rfl, rfl⟩) _ _
  | handler =>
    exact .get fun s => (assisting_helper (fun _ _ => ⟨rfl, rfl, rfl, rfl, rfl, rfl⟩) _ _).seq
      (assisting_helper (fun _ _ => ⟨rfl, rfl, rfl, rfl, rfl, rfl⟩) _ _)
  | giveBack =>
    refine .get fun s => ?_
    split
    · exact .helper _ fun _ => assisting_changeLayout fun _ => ⟨rfl, rfl, rfl, rfl, rfl, rfl⟩
    · exact assisting_pure

theorem assisting_helpFunction : Assisting helpFunction :=
  .helper _ fun _ => .helper _ fun _ => assisting_changeLayout fun _ => ⟨rfl, rfl, rfl, rfl, rfl, rfl⟩

theorem exists_result_beginFunction (s : State) (node : Option Nat) (kind : ScopeKind)
    (scopeNode : Nat) (place : Position) (name : String) :
    ∃ b l sc, result (beginFunction node kind scopeNode place name) s =
        .ok (s.analysis.layouts.size, { s with
          analysis := b, layout := some s.analysis.layouts.size, depths := {},
          scope := some s.analysis.scopes.size }) ∧
      Assists s.analysis.layouts.size ((s.analysis.addLayout l).addScope sc) b ∧
      (l.node = node ∧ l.scope = s.analysis.scopes.size ∧ l.parent = s.layout ∧ l.this = none) ∧
      (sc.parent = s.scope ∧ sc.function = s.analysis.layouts.size ∧ sc.vars = [] ∧
        sc.isForced = false) := by
  obtain ⟨l, sc, hopen, hl, hsc⟩ : ∃ l sc, result (openFunction node kind scopeNode place name) s =
        .ok (s.analysis.layouts.size, { s with
          analysis := (s.analysis.addLayout l).addScope sc, layout := some s.analysis.layouts.size,
          depths := {}, scope := some s.analysis.scopes.size }) ∧
      (l.node = node ∧ l.scope = s.analysis.scopes.size ∧ l.parent = s.layout ∧ l.this = none) ∧
      (sc.parent = s.scope ∧ sc.function = s.analysis.layouts.size ∧ sc.vars = [] ∧
        sc.isForced = false) := ⟨_, _, rfl, ⟨rfl, rfl, rfl, rfl⟩, rfl, rfl, rfl, rfl⟩
  obtain ⟨b, hb, hab⟩ := assisting_helpFunction { s with
      analysis := (s.analysis.addLayout l).addScope sc, layout := some s.analysis.layouts.size,
      depths := {}, scope := some s.analysis.scopes.size } _ rfl
  refine ⟨b, l, sc, ?_, hab, hl, hsc⟩
  rw [beginFunction, result_bind, hopen, Except.bind, result_bind, hb]
  rfl

/-! ## References -/

/-- Mark a variable that a function refers to. -/
def Analysis.capture (a : Analysis) (layout : Option Nat) (v : Nat) : Analysis :=
  if layout = some (a.var v).function then a
  else ((a.markCaptured v).enclosers (a.var v).function a.layouts.size layout).foldl
    Analysis.forceFrame (a.markCaptured v)

section Capture

variable (a : Analysis)

theorem Analysis.enclosers_markCaptured (v stop : Nat) :
    ∀ (limit : Nat) (f : Option Nat), (a.markCaptured v).enclosers stop limit f =
      a.enclosers stop limit f
  | 0, _ | _ + 1, none => rfl
  | limit + 1, some f => by
    simp only [Analysis.enclosers]
    rw [Analysis.enclosers_markCaptured v stop limit]
    rfl

theorem Analysis.foldl_forceFrame (fs : List Nat) (a : Analysis) :
    ∃ scopes, fs.foldl Analysis.forceFrame a = { a with scopes } ∧ scopes.size = a.scopes.size ∧
      ∀ i, scopes.getD i default = { a.scope i with
        isForced := (a.scope i).isForced ||
          decide (i ∈ fs.map (a.layout · |>.scope) ∧ i < a.scopes.size) } := by
  induction fs generalizing a with
  | nil => exact ⟨a.scopes, rfl, rfl, by simp [Analysis.scope]⟩
  | cons f fs ih =>
    obtain ⟨scopes, heq, hsize, hscope⟩ := ih (a.forceFrame f)
    refine ⟨scopes, heq, hsize.trans (a.size_scopes_forceFrame f), fun i => ?_⟩
    have hlayout (g : Nat) : (a.forceFrame f).layout g = a.layout g := rfl
    rw [hscope, a.scope_forceFrame, a.size_scopes_forceFrame]
    simp [hlayout, Bool.or_assoc, or_and_right, eq_comm]

/-- The reference stands in another function than the variable. -/
def Analysis.IsForeign (layout : Option Nat) (v : Nat) : Prop := layout ≠ some (a.var v).function

instance (layout : Option Nat) (v : Nat) : Decidable (a.IsForeign layout v) :=
  inferInstanceAs (Decidable (_ ≠ _))

/-- The scopes of the functions from that of a reference outwards, up to that of the variable. -/
def Analysis.between (layout : Option Nat) (v : Nat) : List Nat :=
  (a.enclosers (a.var v).function a.layouts.size layout).map (a.layout · |>.scope)

theorem Analysis.capture_eq (layout : Option Nat) (v : Nat) :
    ∃ vars scopes, a.capture layout v = { a with vars, scopes } ∧ vars.size = a.vars.size ∧
      scopes.size = a.scopes.size ∧
      (∀ w, vars.getD w default = { a.var w with
        isCaptured := (a.var w).isCaptured || decide (a.IsForeign layout v ∧ w = v ∧ w < a.vars.size) }) ∧
      ∀ i, scopes.getD i default = { a.scope i with
        isForced := (a.scope i).isForced ||
          decide (a.IsForeign layout v ∧ i ∈ a.between layout v ∧ i < a.scopes.size) } := by
  rw [Analysis.capture]
  by_cases h : layout = some (a.var v).function
  · have hforeign : ¬ a.IsForeign layout v := not_not_intro h
    rw [if_pos h]
    exact ⟨a.vars, a.scopes, rfl, rfl, rfl, by simp [hforeign, Analysis.var],
      by simp [hforeign, Analysis.scope]⟩
  · have hforeign : a.IsForeign layout v := h
    rw [if_neg h, a.enclosers_markCaptured]
    obtain ⟨scopes, heq, hsize, hscope⟩ := Analysis.foldl_forceFrame
      (a.enclosers (a.var v).function a.layouts.size layout) (a.markCaptured v)
    refine ⟨_, scopes, heq, a.size_vars_markCaptured v, hsize, fun w => ?_, fun i => ?_⟩
    · rw [show (a.markCaptured v).vars.getD w default = (a.markCaptured v).var w from rfl,
        a.var_markCaptured]
      simp only [hforeign, true_and]
    · rw [hscope]
      simp only [hforeign, true_and]
      rfl

end Capture

theorem result_capture (v : Nat) (s : State) :
    result (capture v) s = .ok ((), { s with analysis := s.analysis.capture s.layout v }) := by
  rw [Scoping.capture, result_get_bind, Analysis.capture]
  dsimp only
  by_cases h : s.layout = some (s.analysis.var v).function
  · rw [if_pos h, if_neg (not_not_intro h)]
    rfl
  · rw [if_neg h, if_pos h]
    rfl

theorem result_use (place : Position) (ref : Tree.Ref) (s : State) :
    result (use place ref) s = match s.analysis.lookup s.scope ref.id with
      | none => .error (.of .malformed place ("variable '" ++ ref.name ++ "' is used outside its scope"))
      | some v =>
        if (s.analysis.variableOf ref.id).isNone && !(s.analysis.var v).isCaptured then
          .error (.of .malformed place
            ("variable '" ++ ref.name ++ "' of the enclosing function is not captured"))
        else .ok ((), { s with analysis := s.analysis.capture s.layout v }) := by
  rw [use, result_get_bind]
  cases s.analysis.lookup s.scope ref.id with
  | none => rfl
  | some v =>
    dsimp only
    split
    · rfl
    · exact result_capture v s

theorem result_useThis (place : Position) (s : State) :
    result (useThis place) s = match s.analysis.member.this with
      | none => .error (.of .malformed place "'this' used in a member without a receiver")
      | some v => .ok ((), { s with analysis := s.analysis.capture s.layout v }) := by
  rw [useThis, result_get_bind]
  cases s.analysis.member.this with
  | none => rfl
  | some v => exact result_capture v s

theorem Analysis.variableOf_eq_none_iff (d : Nat) :
    a.variableOf d = none ↔ ∀ v, a.firstVariable ≤ v → (a.var v).decl ≠ some d := by
  have hvar (v : Nat) : a.vars[v]?.any (fun x => x.decl = some d) = decide ((a.var v).decl = some d) := by
    rw [Analysis.var, Array.getD_eq_getD_getElem?]
    cases a.vars[v]? <;> simp
  simp only [Analysis.variableOf, Analysis.findFrom, List.find?_eq_none, List.mem_map,
    List.mem_reverse, List.mem_range, forall_exists_index, and_imp, forall_apply_eq_imp_iff₂, hvar,
    decide_eq_true_eq]
  constructor
  · intro h v hle
    by_cases hv : v < a.vars.size
    · have := h (v - a.firstVariable) (by omega)
      rwa [Nat.add_sub_cancel' hle] at this
    · simp [Analysis.var_of_le (Nat.le_of_not_lt hv)]
  · exact fun h v _ => h _ (Nat.le_add_right _ _)

theorem Analysis.variableOf_eq_none (hfirst : a.firstVariable = 0) (d : Nat) :
    a.variableOf d = none ↔ ∀ v, (a.var v).decl ≠ some d := by
  simp [Analysis.variableOf_eq_none_iff, hfirst]

/-! ## Steps -/

/-- What a machine has to do with names. -/
structure Core where
  analysis : Analysis
  scope : Option Nat
  layout : Option Nat
  /-- The functions to go back to. -/
  outer : List (Option Nat)

def Machine.core (M : Machine) : Core :=
  ⟨M.state.analysis, M.state.scope, M.state.layout, M.saved.map (·.layout)⟩

/-- The node of the function that begins. -/
def Move.opens : Move → Option (Option Nat)
  | begin node .. => some node
  | nest f _ => some (some f.id)
  | _ => none

/-- Everything that a move can do. -/
inductive Effect (c : Core) : Move → Core → Prop
  | opens {mv : Move} {l : Layout} {sc : Scope} {b : Analysis} :
      mv.opens = some l.node → l.scope = c.analysis.scopes.size → l.parent = c.layout →
      l.this = none → sc.parent = c.scope → sc.function = c.analysis.layouts.size → sc.vars = [] →
      sc.isForced = false →
      Assists c.analysis.layouts.size ((c.analysis.addLayout l).addScope sc) b →
      Effect c mv ⟨b, some c.analysis.scopes.size, some c.analysis.layouts.size, c.layout :: c.outer⟩
  | finish {i : Nat} {outer : Option Nat} {rest : List (Option Nat)} {closures : List Closure} :
      c.scope = some i → c.outer = outer :: rest →
      Effect c .finish ⟨{ c.analysis with closures }, (c.analysis.scope i).parent, outer, rest⟩
  | enter {kind : ScopeKind} {node : Nat} {place : Position} {sc : Scope} {f : Nat} :
      c.layout = some f → sc.parent = c.scope → sc.function = f → sc.vars = [] →
      sc.isForced = false →
      Effect c (.enter kind node place)
        { c with analysis := c.analysis.addScope sc, scope := some c.analysis.scopes.size }
  | exit {i : Nat} : c.scope = some i →
      Effect c .exit { c with scope := (c.analysis.scope i).parent }
  | declare {d : Tree.Declaration} {f i : Nat} {b : Analysis} {mv : Move} :
      mv = .declare d ∨ mv = .parameter d → c.layout = some f → c.scope = some i →
      (∀ v, (c.analysis.var v).decl ≠ some d.id) →
      Assists f (c.analysis.addListed d.name (some d.id) i f) b →
      Effect c mv { c with analysis := b }
  | receiver {f i : Nat} : c.layout = some f → c.scope = some i →
      Effect c .receiver { c with analysis := c.analysis.addReceiver i f }
  | mention {place : Position} {ref : Tree.Ref} {v : Nat} :
      c.analysis.lookup c.scope ref.id = some v →
      Effect c (.mention place ref) { c with analysis := c.analysis.capture c.layout v }
  | this {place : Position} {v : Nat} : c.analysis.member.this = some v →
      Effect c (.this place) { c with analysis := c.analysis.capture c.layout v }
  | help {h : Help} {f : Nat} {b : Analysis} : c.layout = some f → Assists f c.analysis b →
      Effect c (.help h) { c with analysis := b }
  | count {change : Depths → Depths} : Effect c (.count change) c
  | request {optional : List Tree.Declaration} : Effect c (.request optional) c

theorem step_inner_ok {M M' : Machine} {mv : Move} (hmv : mv.isInner = true)
    (h : step M mv = .ok M') : ∃ t, result mv.act M.state = .ok ((), t) ∧ M' = ⟨t, M.saved⟩ := by
  rw [step_inner hmv] at h
  cases hr : result mv.act M.state with
  | error e =>
    rw [hr] at h
    cases h
  | ok x =>
    rw [hr] at h
    cases h
    exact ⟨x.2, rfl, rfl⟩

theorem declare_ok {d : Tree.Declaration} {s t : State} {f i v : Nat}
    (hfirst : s.analysis.firstVariable = 0) (hf : s.layout = some f) (hi : s.scope = some i)
    (h : result (declare d) s = .ok (v, t)) :
    (∀ w, (s.analysis.var w).decl ≠ some d.id) ∧ v = s.analysis.vars.size ∧
      t = { s with analysis := s.analysis.addListed d.name (some d.id) i f } := by
  rw [result_declare hf hi] at h
  split at h
  · cases h
  · next hnone =>
    cases h
    exact ⟨(Analysis.variableOf_eq_none hfirst d.id).mp (by simpa using hnone), rfl, rfl⟩

theorem step_effect {M M' : Machine} {mv : Move} (hfirst : M.state.analysis.firstVariable = 0)
    (hopen : mv.opens = none → ∃ f i outer rest, M.state.layout = some f ∧ M.state.scope = some i ∧
      M.saved = outer :: rest)
    (h : step M mv = .ok M') : Effect M.core mv M'.core := by
  cases mv with
  | begin node kind scopeNode place name =>
    obtain ⟨b, l, sc, hb, hab, ⟨hnode, hscope, hparent, hthis⟩, hsc⟩ :=
      exists_result_beginFunction M.state node kind scopeNode place name
    simp only [step, bind, Except.bind, hb, pure, Except.pure] at h
    cases h
    exact .opens (congrArg some hnode.symm) hscope hparent hthis hsc.1 hsc.2.1 hsc.2.2.1 hsc.2.2.2 hab
  | nest f name =>
    obtain ⟨name', n, hname⟩ : ∃ name' n, result (closureName name) M.state =
        .ok (name', { M.state with closureCount := n }) := ⟨_, _, rfl⟩
    obtain ⟨b, l, sc, hb, hab, ⟨hnode, hscope, hparent, hthis⟩, hsc⟩ :=
      exists_result_beginFunction { M.state with closureCount := n } (some f.id) .function f.id f.place
        name'
    simp only [step, hname, bind, Except.bind, hb, pure, Except.pure] at h
    cases h
    exact .opens (congrArg some hnode.symm) hscope hparent hthis hsc.1 hsc.2.1 hsc.2.2.1 hsc.2.2.2 hab
  | finish =>
    obtain ⟨f, i, ⟨layout, depths, closure⟩, rest, hf, hi, hsaved⟩ := hopen rfl
    obtain ⟨⟨a, enclosing, scope, _, _, _, _⟩, _⟩ := M
    cases hsaved
    cases hi
    cases closure with
    | none =>
      cases h
      exact .finish rfl rfl
    | some c =>
      cases h
      exact .finish rfl rfl
  | enter kind node place =>
    obtain ⟨f, i, _, _, hf, hi, _⟩ := hopen rfl
    cases h
    exact .enter hf rfl (by rw [hf]; rfl) rfl rfl
  | exit =>
    obtain ⟨f, i, _, _, hf, hi, _⟩ := hopen rfl
    obtain ⟨⟨_, _, _, _, _, _, _⟩, _⟩ := M
    cases hi
    cases h
    exact .exit rfl
  | declare d =>
    obtain ⟨f, i, _, _, hf, hi, _⟩ := hopen rfl
    obtain ⟨t, ht, rfl⟩ := step_inner_ok rfl h
    rw [Move.act, result_bind] at ht
    cases hd : result (declare d) M.state with
    | error e =>
      rw [hd] at ht
      cases ht
    | ok x =>
      rw [hd] at ht
      obtain ⟨hnew, _, hx⟩ := declare_ok hfirst hf hi hd
      cases ht
      rw [hx]
      exact .declare (.inl rfl) hf hi hnew .refl
  | parameter d =>
    obtain ⟨f, i, _, _, hf, hi, _⟩ := hopen rfl
    obtain ⟨t, ht, rfl⟩ := step_inner_ok rfl h
    rw [Move.act, declareParameter, result_bind] at ht
    cases hd : result (declare d) M.state with
    | error e =>
      rw [hd] at ht
      cases ht
    | ok x =>
      obtain ⟨v, s⟩ := x
      obtain ⟨hnew, _, rfl⟩ := declare_ok hfirst hf hi hd
      have hnote := result_changeLayout
        (s := { M.state with analysis := M.state.analysis.addListed d.name (some d.id) i f }) hf
        fun l => { l with parameters := l.parameters ++ [v] }
      rw [hd] at ht
      cases ht.symm.trans hnote
      exact .declare (.inr rfl) hf hi hnew (Assists.refl.note fun _ => ⟨rfl, rfl, rfl, rfl, rfl, rfl⟩)
  | receiver =>
    obtain ⟨f, i, _, _, hf, hi, _⟩ := hopen rfl
    obtain ⟨t, ht, rfl⟩ := step_inner_ok rfl h
    have hnote := result_changeLayout
      (s := { M.state with analysis := M.state.analysis.addListed "this" none i f }) hf
      fun l => { l with this := some M.state.analysis.vars.size }
    rw [Move.act, declareThis, result_bind, result_declareIn hf hi] at ht
    cases ht.symm.trans hnote
    exact .receiver hf hi
  | mention place ref =>
    obtain ⟨t, ht, rfl⟩ := step_inner_ok rfl h
    rw [Move.act, result_use] at ht
    split at ht
    · cases ht
    · next v hv =>
      split at ht
      · cases ht
      · cases ht
        exact .mention hv
  | this place =>
    obtain ⟨t, ht, rfl⟩ := step_inner_ok rfl h
    rw [Move.act, result_useThis] at ht
    split at ht
    · cases ht
    · next v hv =>
      cases ht
      exact .this hv
  | count change =>
    cases h
    exact .count
  | help ask =>
    obtain ⟨f, i, _, _, hf, hi, _⟩ := hopen rfl
    obtain ⟨t, ht, rfl⟩ := step_inner_ok rfl h
    obtain ⟨b, hb, hab⟩ := assisting_ask ask M.state f hf
    cases ht.symm.trans hb
    exact .help hf hab
  | request optional =>
    cases h
    exact .request

end Flowgraph.Scoping
