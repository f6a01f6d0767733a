import Flowgraph.Proofs.Constant.Table
import Flowgraph.Proofs.Lowering.Forward.Graph
import Flowgraph.Proofs.Lowering.Linear.Dispatch
import Flowgraph.Proofs.Lowering.Trace.Statement

/-! # Graphs that do what bodies do

From the start of a graph on, control meets what the body of the function meets: no more
than that, and under every oracle all of it.
-/

namespace Flowgraph.Lowering

open Constant (KeepsTable Store)
open Flowgraph.Graph (Fragment)
open Scoping (Variable)
open Symbols (FunctionInfo Table)

/-! ## What is kept until the body -/

/-- The store is left as it is. -/
def Stored (s t : State) : Prop := t.store = s.store

instance : Steady Stored where
  refl _ := rfl
  trans h g := g.trans h
  turn _ _ _ := rfl
  reframe _ _ := rfl
  rename _ := rfl

instance : Popping Stored := ⟨fun _ _ _ => rfl⟩

instance (f g : Fragment) : Within Stored (append f g) := ⟨fun _ _ => ends_append.mpr rfl⟩

/-- Straight code leaves the store as it is. -/
def storing : Pieces Stored where
  Makes m := Within Stored m
  Continues k := ∀ f, Within Stored (k f)
  Closes := False
  throws := true
  empty := inferInstance
  stop h := ⟨fun env s => h env s _⟩
  bind _ _ := inferInstance
  idle _ := inferInstance
  pure _ := inferInstance
  trans hk _ f := have := hk f; inferInstance
  append _ _ := inferInstance
  rest hk f := have := (hk · f); inferInstance
  define _ := ⟨fun _ _ => ends_define.mpr rfl⟩
  perform _ := ⟨fun _ _ => ends_perform.mpr rfl⟩
  raise h := h.elim
  return_ h := h.elim

instance : storing.calculus.Throwing := ⟨rfl⟩

section KeepsTable

instance (kind : FailureKind) (place : Position) (message : String) {α : Type} :
    KeepsTable (failed kind place message : Constant.EvalM α) :=
  inferInstanceAs (KeepsTable (Constant.fail kind place message))

instance (info : FunctionInfo) : KeepsTable (planMember info) := by
  unfold planMember
  split
  · refine .bind fun a => ?_
    dsimp only
    split <;> infer_instance
  · infer_instance

instance (t : Table) (id : Nat) : KeepsTable (planClosure t id) := by
  unfold planClosure
  dsimp only
  split
  · infer_instance
  · refine .bind fun a => ?_
    split <;> infer_instance

end KeepsTable

end Flowgraph.Lowering

namespace Flowgraph.Lowering.Trace

open Constant (KeepsTable Store)
open Flowgraph.Graph (Code Event Fragment)
open Flowgraph.Tree (Stmt)
open Symbols (FunctionInfo Table)

/-! ## Bodies -/

theorem lays_bodyCode (o : Oracle) {body : Option Stmt} (h : isStructuredOption body = true) :
    Lays o (bodyCode body) (executeBody o.decide o.turns body) := by
  have hnull : Lays o (marked (.giveBack none) nullConstant) (.meet [.giveBack none] .normal) :=
    lays_marked pieces.made (fills_lowerOption none)
  have hreturn : Puts o (fun f => chain f [marked (.giveBack none) nullConstant, giveBack])
      (.meet [.giveBack none] .returned) := .cons hnull puts_return
  exact (lays_lowerOptionStmt o body h).bind hreturn.ifOpen

/-- No initializer of the constructor or of a field of its class throws. -/
def quietInitializers (t : Table) (info : FunctionInfo) : Bool :=
  info.constructor?.all fun ctor =>
    ctor.initializers.all (!·.throws) &&
    ((info.owner.bind t.class?).bind (·.decl)).all fun c =>
      c.fields.all fun f => !Tree.throwsOption f.initializer

section Start

variable {o : Oracle} {env : Env} {s : State} {L : List Fragment} {f : Fragment}
  {info : FunctionInfo} {body : Tree.Function}

theorem ends_constructorCode {owner : String} {ctor : Tree.Constructor}
    {Q : Fragment → State → Prop}
    (h : ∀ c callsSuper, s.store.table.class? owner = some c → Ends env (inOrder
      ((if ctor.isRedirecting then [] else fieldInitializers c) ++
        ctor.initializers.map (runInitializer c) ++
        (if ctor.isRedirecting || callsSuper then [] else
          (implicitSuper s.store.table c).toList.map fun super => do
            let id ← query (·.resolveConstructor ⟨super, ""⟩)
            delegate ctor.place id {}))) s Q) :
    Ends env (constructorCode owner ctor) s Q := by
  unfold constructorCode table
  rw [ends_bind, ends_bind, ends_get, ends_pure, ends_bind]
  cases hc : s.store.table.class? owner with
  | none => exact ends_throw
  | some c => exact ends_pure.mpr (h c _ hc)

theorem lays_prologue (node : Nat) (place : Position) (closure : Option Scoping.Variable) :
    Lays o (prologue node place closure) (pure .normal) := Makes.lays discipline.made

theorem lays_closureCode (h : isStructuredOption body.body = true) :
    Lays o (closureCode body) (executeBody o.decide o.turns body.body) := by
  have := Puts.cons (lays_prologue body.id body.place (some { name := ":closure", slot := -1 }))
    (.single (lays_bodyCode o h))
  exact .inOrder this

theorem added_constructorCode (o : Oracle) {owner : String} {ctor : Tree.Constructor}
    (hc : info.constructor? = some ctor) (ho : info.owner = some owner)
    (hquiet : quietInitializers s.store.table info = true) (hs : Inv s (f :: L)) :
    Ends env (constructorCode owner ctor >>= append f) s (Added o s L f (pure .normal)) := by
  simp only [quietInitializers, hc, ho, Option.all_some, Option.bind_some, Bool.and_eq_true] at hquiet
  obtain ⟨hinits, hfields⟩ := hquiet
  have hpieces : ∀ c callsSuper, s.store.table.class? owner = some c → _ := fun c callsSuper hclass =>
    made_constructorPieces discipline.calculus s.store.table c ctor callsSuper
      (fun f hf => allows_of_not_throws <| by
        rw [hclass] at hfields
        cases hdecl : c.decl with
        | none => simp [hdecl] at hf
        | some decl =>
          simp only [hdecl, Option.bind_some, Option.all_some, List.all_eq_true] at hfields
          simpa using hfields f (by simpa [hdecl] using hf))
      fun i hi => allows_of_not_throws (by simpa using List.all_eq_true.mp hinits i hi)
  rw [ends_bind]
  refine ends_constructorCode fun c callsSuper hclass => ?_
  have hsilent : Lays o _ (pure .normal) :=
    Makes.lays (pieces.inOrder fun m hm => (hpieces c callsSuper hclass m hm).made)
  exact ends_bind.mp (hsilent.append env s L f hs)

theorem added_memberCode (hs : Inv s L) (hbody : isStructuredOption body.body = true)
    (hquiet : quietInitializers s.store.table info = true) :
    Ends env (memberCode info body) s
      (Added o s L .empty (executeBody o.decide o.turns body.body)) := by
  have hbody : Puts o (fun f => chain f [bodyCode body.body])
      (executeBody o.decide o.turns body.body) := .single (lays_bodyCode o hbody)
  have hprologue : Lays o _ _ := lays_prologue body.id body.place none
  unfold memberCode
  cases hc : info.constructor? with
  | none => exact (Lays.inOrder (.cons hprologue hbody)) env s L hs
  | some ctor =>
    cases ho : info.owner with
    | none =>
      refine Ends.bind (M := fun _ _ => True) (ends_of_forall fun _ _ => trivial) fun g t _ => ?_
      rw [ends_bind, ends_append]
      exact ends_bind.mpr ends_throw
    | some owner =>
      have hkeeps : Within Stored (prologue body.id body.place none >>= append .empty) :=
        storing.append storing.made .empty
      have hsplit : inOrder ([prologue body.id body.place none] ++ ((some ctor).map fun ctor => do
            constructorCode (← required (some owner)) ctor).toList ++ [bodyCode body.body]) =
          (prologue body.id body.place none >>= append .empty) >>= fun f =>
            (constructorCode owner ctor >>= append f) >>= fun f => chain f [bodyCode body.body] := by
        simp [inOrder, chain, required, bind_assoc]
      rw [hsplit]
      have hempty : Inv s (.empty :: L) := ⟨hs.held.empty, hs.notes, hs.joined⟩
      refine ((hprologue.append env s L .empty hempty).and (hkeeps.ends env s)).bind ?_
      rintro f s1 ⟨h1, hstore⟩
      rw [← show s1.store = s.store from hstore] at hquiet
      refine (added_constructorCode o hc ho hquiet h1.inv).bind fun g s2 h2 => ?_
      exact (hbody env s2 L g h2.inv).mono fun g' t h => h1.trans (h2.trans h)

end Start

/-! ## Plans -/

/-- The body of a member. -/
def memberBody (info : FunctionInfo) : Option Tree.Function :=
  match info.member with
  | some (.procedure _ p) => p.function
  | some (.constructor _ c) => some c.function
  | _ => none

/-- The body that the graph of a function is made from. -/
def sourceBody (t : Table) (id : Nat) : Option Tree.Function :=
  match (t.function id).kind with
  | .closure => (t.function id).body
  | .regular | .getter | .setter | .factory | .constructor => memberBody (t.function id)
  | _ => none

section Plan

variable {t : Table} {id : Nat} {body : Tree.Function} {p : Plan} {s store : Store}

theorem gives_planMember_code {info : FunctionInfo} (hb : memberBody info = some body) :
    Gives (planMember info) fun p => p.code = memberCode info body := by
  unfold planMember
  split
  · rename_i member _ hmember
    refine gives_bind fun a => ?_
    rw [memberBody, hmember] at hb
    dsimp only
    split <;> rename_i hbody
    · exact gives_throw
    · cases member with
      | field => cases hb
      | procedure _ q => exact gives_pure (by rw [Option.some.inj (hbody.symm.trans hb)])
      | constructor _ c => exact gives_pure (by rw [Option.some.inj (hbody.symm.trans hb)])
  · exact gives_failed

theorem gives_planClosure_code (hb : (t.function id).body = some body) :
    Gives (planClosure t id) fun p => p.code = closureCode body := by
  unfold planClosure
  dsimp only
  split
  · exact gives_failed
  · refine gives_bind fun a => ?_
    rw [hb]
    split
    · exact gives_failed
    · rename_i body' i h
      obtain ⟨_, -, h⟩ := Option.map_eq_some_iff.mp h
      cases h
      exact gives_pure rfl

theorem plan_code (hb : sourceBody t id = some body) (hp : (plan t id).run s = (.ok p, store)) :
    store.table = s.table ∧
      ((t.function id).kind = .closure ∧ p.code = closureCode body ∨
        (t.function id).kind ≠ .closure ∧ p.code = memberCode (t.function id) body) := by
  have hkeeps {m : Constant.EvalM Plan} [h : KeepsTable m] (hm : m.run s = (.ok p, store)) :
      store.table = s.table := by
    have := h.table s
    rwa [show Constant.evalFrom m s = _ from hm] at this
  unfold plan at hp
  dsimp only at hp
  unfold sourceBody at hb
  split at hp
  · cases hp
  · split at hp
    all_goals rename_i hkind; simp only [hkind] at hb
    all_goals first
      | cases hb
      | exact ⟨hkeeps hp, .inl ⟨hkind, gives_planClosure_code hb _ _ _ hp⟩⟩
      | exact ⟨hkeeps hp, .inr ⟨by simp [hkind], gives_planMember_code hb _ _ _ hp⟩⟩

end Plan

/-! ## The graph of a function -/

section Build

variable {settings : Settings} {store store' : Store} {place : Position} {env : Env} {g : Graph}
  {id : Nat} {body : Tree.Function} {info : FunctionInfo} {code : LowerM Fragment}
  {o : Oracle} {D : Run Ending}

theorem inv_startState (settings : Settings) (store : Store) (place : Position) :
    Inv (startState settings store place) [.single 1] := by
  have hnext := Assembly.startCode_next settings.firstBlock
  have hlt : 1 < (startCode settings.firstBlock).size := by simp [startCode]
  refine ⟨⟨⟨List.nodup_singleton 1, List.nodup_singleton 1, ?_, ?_⟩, fun i j hij => ?_⟩,
    fun _ _ => rfl, by simp [startState, joins]⟩
  · rintro _ (_ | ⟨_, ⟨⟩⟩) _ ⟨⟩
    refine ⟨hlt, fun i hi => ?_⟩
    cases (hnext i).symm.trans hi
  · rintro _ (_ | ⟨_, ⟨⟩⟩) _ ⟨⟩
    exact ⟨hlt, hnext 1⟩
  · cases (hnext i).symm.trans hij

/-- There is nothing behind the body of a function. -/
theorem tells_functionBody
    (h : Ends env code (startState settings store place)
      (Added o (startState settings store place) [.single 1] .empty D)) :
    Ends env (functionBody info code) (startState settings store place) fun _ t =>
      ∀ {w n}, t.code.Extends w.code → w.events = t.sources.eventsAt → n ≤ o.turns →
        Tells o w n (D.goOn fun _ met => met) 1 := by
  refine (ends_functionBody h).mono ?_
  rintro _ _ ⟨body, s, hs, hclosed, rfl⟩ w n hw hevents hn
  have hbreakables : s.breakables = [] := List.forall₂_nil_left_iff.mp hs.step.breakables
  obtain ⟨hext, -, hthrough⟩ := (hs.inv.perm (.swap _ _ _)).held.append
  have hlater : Later s w fun _ => none :=
    ⟨hext.trans hw, fun _ _ => by rw [hevents], by simp [hbreakables, targetOf]⟩
  have hleaves : Leaves o w (fun _ => none) n fun _ met => met := ⟨hn, by simp, rfl⟩
  have hlt : 1 < (startCode settings.firstBlock).size := by simp [startCode]
  have hstart : Passes o s .empty (.single 1) (pure .normal) := by
    refine passes_join (hlt.trans_le hs.step.size) ?_ (hs.step.events 1 hlt)
    exact isTerminator_eq hs.step.code hlt
  refine hstart.silent hlater hleaves ((hthrough (P := fun _ => True) hw ?_).mono fun j hj => ?_)
  · obtain ⟨e, rfl⟩ := Fragment.eq_of_closed hclosed
    exact Eq.refl 1
  · exact hs.passes hlater hleaves (hj.of_closed hclosed)

/-- A call of the function below. -/
def searchCall : Tree.Expr := .staticCall {} ⟨"", "f"⟩ {} false

/-- Is it there? Then stop, else go on as long as there is more. -/
def searchBody : Tree.Function where
  id := 0
  place := {}
  body := some <| .labeled 1 {} "" <| .whileDo {} (.not {} searchCall) <| .block 2 {}
    [.branch {} searchCall (.breakOut {} ⟨1, ""⟩) none, .expr {} searchCall]

def searchStore : Store where
  table :=
    { functions := #[{ name := "f", isStatic := true, body := some searchBody,
                       member := some (.procedure none ⟨{}, "f", .method, true, false, searchBody⟩) }]
      functionIndex := [(⟨"", "f"⟩, 0)] }

end Build

end Flowgraph.Lowering.Trace
