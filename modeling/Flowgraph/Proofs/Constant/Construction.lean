import Flowgraph.Lowering.Function
import Flowgraph.Symbols.Declare
import Flowgraph.Proofs.Constant.Follow

/-! # Folded and lowered constructors

The code of a constructor starts with steps that store into fields or call other
constructors. Running these steps on a new object gives the object that evaluation makes.
-/

namespace Flowgraph.Lowering

open Symbols (ClassInfo Table)
open Flowgraph.Graph (Fragment)
open Flowgraph.Tree (MemberRef)

/-- What the code of a constructor does before its body. -/
inductive InitStep
  /-- The initializer of a field does not see the parameters. -/
  | store (seesParameters : Bool) (field : MemberRef) (value : Tree.Expr)
  /-- A call that is not written has no place of its own. -/
  | call (place : Option Position) (target : Option MemberRef) (args : Tree.Arguments)

def InitStep.code (c : ClassInfo) (ctor : Tree.Constructor) : InitStep → LowerM Fragment
  | store _ ref value => do
    let field ← query (·.resolveField ref)
    initializeField field value
  | call place (some target) args => do
    let id ← query (·.resolveConstructor target)
    delegate (place.getD ctor.place) id args
  | call place none _ => malformed (place.getD ctor.place) (c.name ++ " has no superclass")

def fieldSteps (c : ClassInfo) : List InitStep :=
  ((c.decl.map (·.fields)).getD []).filterMap fun f =>
    if f.isStatic then none else f.initializer.map (.store false ⟨c.name, f.name⟩)

def initializerStep (c : ClassInfo) : Tree.Initializer → InitStep
  | .field _ name value => .store true ⟨c.name, name⟩ value
  | .superCall place target args => .call (some place) (c.super.map (⟨·, target.name⟩)) args
  | .redirect place target args => .call (some place) (some ⟨c.name, target.name⟩) args

def callsSuper : Tree.Initializer → Bool
  | .superCall .. => true
  | _ => false

/-- The steps of a constructor, in order. -/
def initSteps (t : Table) (c : ClassInfo) (ctor : Tree.Constructor) : List InitStep :=
  (if ctor.isRedirecting then [] else fieldSteps c) ++ ctor.initializers.map (initializerStep c) ++
    if ctor.isRedirecting || ctor.initializers.any callsSuper then [] else
      (implicitSuper t c).toList.map fun super => .call none (some ⟨super, ""⟩) {}

theorem constructorCode_eq (owner : String) (ctor : Tree.Constructor) : constructorCode owner ctor = (do
    let t ← table
    let c ← required (t.class? owner)
    inOrder ((initSteps t c ctor).map (InitStep.code c ctor))) := by
  have hfields (c : ClassInfo) : fieldInitializers c = (fieldSteps c).map (InitStep.code c ctor) := by
    rw [fieldInitializers, fieldSteps, List.map_filterMap]
    refine List.filterMap_congr fun f _ => ?_
    cases f.isStatic <;> cases f.initializer <;> rfl
  have hinits (c : ClassInfo) : runInitializer c = InitStep.code c ctor ∘ initializerStep c := by
    funext init
    cases init with
    | superCall => cases hc : c.super <;> simp [runInitializer, initializerStep, InitStep.code, hc]
    | _ => rfl
  unfold constructorCode
  refine bind_congr fun t => bind_congr fun c => congrArg inOrder ?_
  simp only [initSteps, List.map_append, List.map_map, hfields, hinits]
  congr 1
  · congr 1
    split <;> rfl
  · split <;> rename_i h
    · rw [if_pos]
      · rfl
      · exact h
    · rw [if_neg]
      · simp [Function.comp_def, InitStep.code]
      · exact h

end Flowgraph.Lowering

namespace Flowgraph.Symbols

open Flowgraph.Tree (ClassDecl MemberRef)

/-- A class of the table and its declaration. -/
structure Declares (t : Table) (c : ClassInfo) (k : ClassDecl) : Prop where
  name : c.name = k.name
  found : t.class? k.name = some c
  decl : c.decl = some k
  super : c.super = if superName k = "" then none else some (superName k)
  fields : List.Forall₂ (fun id d => t.fieldIndex.get? ⟨k.name, d.name⟩ = some id ∧
    (t.field id).isStatic = d.isStatic ∧ (t.field id).decl = some d) c.fields k.fields

/-- What is found as a constructor: one that a class of the library declares, or else a factory of
such a class or something that a manifest declares. -/
def Creates (l : Tree.Library) (ref : MemberRef) (f : FunctionInfo) : Prop :=
  f.owner = some ref.className ∧ ref.className ≠ "" ∧
    (f.constructor? = none ∧ (f.isConst = true → ∀ k ∈ l.classes, k.name ≠ ref.className) ∨
      ∃ k ∈ l.classes, k.name = ref.className ∧
        ∃ ctor ∈ k.constructors, ctor.name = ref.name ∧ f.constructor? = some ctor)

/-- The table of a program with the library. -/
structure Declared (l : Tree.Library) (t : Table) : Prop where
  classes : ∀ k ∈ l.classes, ∃ c, Declares t c k
  origin : ∀ c ∈ t.classes, ∀ k, c.decl = some k → k ∈ l.classes ∧ k.name = c.name
  creators : ∀ entry ∈ t.constructorIndex, Creates l entry.1 (t.function entry.2)

theorem Declared.creates {l : Tree.Library} {t : Table} {ref : MemberRef} {id : Nat} (hl : Declared l t)
    (h : t.resolveConstructor ref = .ok id) : Creates l ref (t.function id) := by
  unfold Table.resolveConstructor at h
  split at h
  · rename_i found hfound
    obtain rfl : found = id := by simpa using h
    exact hl.creators _ (Table.mem_of_get? hfound)
  · unfold Table.resolveClass at h
    split at h <;> cases h

def Table.ownFields (t : Table) (name : String) : List Nat := ((t.class? name).map (·.fields)).getD []

theorem Declares.ownFields {t : Table} {c : ClassInfo} {k : ClassDecl} {name : String} (h : Declares t c k)
    (hname : name = k.name) : t.ownFields name = c.fields := by
  rw [Table.ownFields, hname, h.found]
  rfl

theorem Table.chain_eq_cons {t : Table} {name : String} {c : ClassInfo} (h : t.class? name = some c) :
    ∃ rest, t.chain name = c :: rest := by
  have hmem : c ∈ t.classes := List.mem_of_find?_eq_some h
  obtain ⟨n, hn⟩ := Nat.exists_eq_add_one.mpr (List.length_pos_of_mem hmem)
  exact ⟨t.chainFrom n c.super, by simp [chain, hn, chainFrom, h]⟩

theorem Table.mem_instanceFields {t : Table} {name : String} {f : Nat} (h : f ∈ t.ownFields name)
    (hf : (t.field f).isStatic = false) : f ∈ t.instanceFields name := by
  rcases hc : t.class? name with _ | c
  · simp [ownFields, hc] at h
  · obtain ⟨rest, hrest⟩ := chain_eq_cons hc
    simp only [ownFields, hc, Option.map_some, Option.getD_some] at h
    simp [instanceFields, hrest, h, hf]

theorem Table.resolveField_own {t : Table} {ref : MemberRef} {c : ClassInfo} {id : Nat}
    (h : t.class? ref.className = some c) (hindex : t.fieldIndex.get? ref = some id) :
    t.resolveField ref = .ok id := by
  have hname : c.name = ref.className := by simpa using List.find?_some h
  have hlookup : t.lookupField ref = some id := by
    unfold lookupField lookupIn
    split
    · exact hindex
    · obtain ⟨rest, hrest⟩ := chain_eq_cons h
      rw [hrest, List.findSome?_cons, hname, hindex]
  rw [resolveField, hlookup]

end Flowgraph.Symbols

namespace Flowgraph.Tree

/-- A call of a constructor in an initializer list names a class as resolution makes it. -/
def Initializer.Targets (k : ClassDecl) : Initializer → Prop
  | .superCall _ target _ => target.className = k.super
  | .redirect _ target _ => target.className = k.name
  | .field .. => True

def Library.Delegates (l : Library) : Prop :=
  ∀ k ∈ l.classes, ∀ ctor ∈ k.constructors, ∀ init ∈ ctor.initializers, init.Targets k

end Flowgraph.Tree

namespace Flowgraph.Constant

open Lowering (InitStep callsSuper fieldSteps implicitSuper initSteps initializerStep)
open Symbols (ClassInfo Declared Declares Table superName)

/-- Take one step on a receiver. -/
def perform (ask : Nat → EvalM Value) (call : Position → Nat → Receiver → Actuals → EvalM Receiver)
    (depth : Nat) (place : Position) (env : Env) (fields : Receiver) : InitStep → EvalM Receiver
  | .store sees ref value => do
    let i ← query fun t => do return (t.field (← t.resolveField ref)).offset
    return fields.set i (some (← evaluate ask depth (if sees then env else []) value))
  | .call written (some target) args => do
    let id ← query (·.resolveConstructor target)
    call (written.getD place) id fields (← evaluateArguments ask depth env args)
  | .call _ none _ => throw .crashed

/-- Take the steps of a constructor. One that has no code takes none. -/
def interpret (ask : Nat → EvalM Value) : Nat → Position → Nat → Receiver → Actuals → EvalM Receiver
  | 0, _, _, _, _ => throw .exhausted
  | depth + 1, place, id, fields, actuals => do
    let t := (← get).table
    match (t.function id).constructor? with
    | none => return fields
    | some ctor =>
      let env ← bindParameters ask depth place id ctor.function actuals
      match t.class? ((t.function id).owner.getD "") with
      | none => throw .crashed
      | some c => (initSteps t c ctor).foldlM (perform ask (interpret ask depth) depth place env) fields

/-- A step with fields unfolded. -/
abbrev proceed (n depth : Nat) : Position → Env → Receiver → InitStep → EvalM Receiver :=
  perform (unfoldField n) (interpret (unfoldField n) depth) depth

/-! ## Receivers -/

/-- The receivers agree on all other fields than `D`. -/
def AgreeOff (D : Nat → Prop) (w : World) (a b : Receiver) : Prop :=
  ∃ m, SameReceiver w m b ∧ a.length = m.length ∧ ∀ i, ¬D i → a[i]? = m[i]?

namespace AgreeOff

variable {D E : Nat → Prop} {w w' : World} {a b : Receiver}

theorem later (h : AgreeOff D w a b) (hw : Later w w') : AgreeOff D w' a b := by
  obtain ⟨c, hcb, hac⟩ := h
  exact ⟨c, hw.receiver hcb, hac⟩

theorem mono (h : AgreeOff D w a b) (hD : ∀ i, D i → E i) : AgreeOff E w a b := by
  obtain ⟨c, hcb, hlength, hac⟩ := h
  exact ⟨c, hcb, hlength, fun i hi => hac i (mt (hD i) hi)⟩

theorem set (h : AgreeOff D w a b) (i : Nat) {v v' : Value} (hv : Same w v v') :
    AgreeOff (fun j => D j ∧ j ≠ i) w (a.set i (some v)) (b.set i (some v')) := by
  obtain ⟨c, hcb, hlength, hac⟩ := h
  refine ⟨c.set i (some v), hcb.set i hv, by simpa using hlength, fun j hj => ?_⟩
  rw [List.getElem?_set, List.getElem?_set, hlength]
  split
  · rfl
  · rename_i hne
    exact hac j fun hD => hj ⟨hD, Ne.symm hne⟩

theorem setLeft (h : AgreeOff D w a b) {i : Nat} (hi : D i) (v : Option Value) :
    AgreeOff D w (a.set i v) b := by
  obtain ⟨c, hcb, hlength, hac⟩ := h
  refine ⟨c, hcb, by simpa using hlength, fun j hj => ?_⟩
  rw [List.getElem?_set_ne (by rintro rfl; exact hj hi)]
  exact hac j hj

end AgreeOff

/-- The fields of a class that its initializers write. -/
def Initialized (t : Table) (fields : List Nat) (i : Nat) : Prop :=
  ∃ f ∈ fields, (t.field f).isStatic = false ∧ (t.field f).initializer.isSome = true ∧ (t.field f).offset = i

section

variable {t : Table} {w : World} {ask : Nat → EvalM Value} {d k : Nat} {env env' : Env} {D : Nat → Prop}
  {a b : Receiver} {place : Position}

theorem follows_store (h : Evaluates t ask (fun n => unfoldField n) d) (sees : Bool) {ref : Tree.MemberRef}
    {id : Nat} {value : Tree.Expr}
    (hid : t.resolveField ref = .ok id) (henv : SameEnv w env env') (hab : AgreeOff D w a b) :
    Follows t (AgreeOff fun i => D i ∧ i ≠ (t.field id).offset)
      (do return a.set (t.field id).offset (some (← evaluate ask d (if sees then env else []) value)))
      (fun n => proceed n (n - k) place env' b (.store sees ref value)) w := by
  have hseen : SameEnv w (if sees then env else []) (if sees then env' else []) := by
    cases sees
    · exact .nil
    · exact henv
  refine .asks (d := (t.field id).offset) (fun t' ht => ?_) ?_
  · rw [ht.resolveField, hid, ← ht.field]
    rfl
  · refine (Follows.of_related fun _ hw => h.expr value (hw.env hseen)).bind fun w1 v v' hw1 hv => ?_
    exact .pure fun w2 hw2 => (hab.later (hw1.trans hw2)).set _ (hw2.same hv)

/-! ## Fields of a class -/

/-- Write the value of a field's initializer. -/
def initField (t : Table) (value : Tree.Expr → EvalM Value) (fields : Receiver) (f : Nat) : EvalM Receiver :=
  match (t.field f).isStatic, (t.field f).initializer with
  | false, some e => return fields.set (t.field f).offset (some (← value e))
  | _, _ => return fields

theorem initialized_cons {f : Nat} {fs : List Nat} {i : Nat} : Initialized t (f :: fs) i ↔
    ((t.field f).isStatic = false ∧ (t.field f).initializer.isSome = true ∧ (t.field f).offset = i) ∨
      Initialized t fs i := by
  simp only [Initialized, List.mem_cons, exists_eq_or_imp]

/-- Initializers that the steps repeat. -/
theorem follows_initField (h : Evaluates t ask (fun n => unfoldField n) d)
    {name : String} {fs : List Nat}
    {ds : List Tree.Field} (hfields : List.Forall₂ (fun id d => t.resolveField ⟨name, d.name⟩ = .ok id ∧
      (t.field id).isStatic = d.isStatic ∧ (t.field id).initializer = d.initializer) fs ds)
    (henv : SameEnv w env env') (hab : AgreeOff D w a b) :
    Follows t (AgreeOff fun i => D i ∧ ¬Initialized t fs i) (fs.foldlM (initField t (evaluate ask d [])) a)
      (fun n => (ds.filterMap fun f => if f.isStatic then none
        else f.initializer.map (InitStep.store false ⟨name, f.name⟩)).foldlM
          (proceed n (n - k) place env') b) w := by
  induction hfields generalizing w a b D with
  | nil => exact .pure fun _ hw => (hab.later hw).mono fun _ hi => ⟨hi, by simp [Initialized]⟩
  | @cons f fd fs ds hf _ ih =>
    obtain ⟨hid, hstatic, hinit⟩ := hf
    rw [List.foldlM_cons, List.filterMap_cons, initField, ← hstatic, ← hinit]
    rcases hs : (t.field f).isStatic with _ | _
    · rcases hi : (t.field f).initializer with _ | e
      · refine (ih henv hab).mono fun w' _ _ hab => hab.mono fun i ⟨hD, hn⟩ => ⟨hD, ?_⟩
        simpa [initialized_cons, hi] using hn
      · refine (follows_store h false hid henv hab).bind fun w1 a b hw1 hab => ?_
        refine (ih (hw1.env henv) hab).mono fun w' _ _ hab => hab.mono ?_
        rintro i ⟨⟨hD, hne⟩, hn⟩
        refine ⟨hD, fun hi => ?_⟩
        rcases initialized_cons.mp hi with ⟨-, -, heq⟩ | hin
        · exact hne heq.symm
        · exact hn hin
    · refine (ih henv hab).mono fun w' _ _ hab => hab.mono fun i ⟨hD, hn⟩ => ⟨hD, ?_⟩
      simpa [initialized_cons, hs] using hn

/-- Initializers that the steps leave to another constructor. -/
theorem follows_initField_none (h : Evaluates t ask (fun n => unfoldField n) d) {fs : List Nat}
    (hD : ∀ i, Initialized t fs i → D i) (hab : AgreeOff D w a b) :
    Follows t (AgreeOff D) (fs.foldlM (initField t (evaluate ask d [])) a) (fun _ => pure b) w := by
  induction fs generalizing w a with
  | nil => exact .pure fun _ hw => hab.later hw
  | cons f fs ih =>
    have hrest (i) (hi : Initialized t fs i) := hD i (initialized_cons.mpr (.inr hi))
    rw [List.foldlM_cons, initField]
    split
    · rename_i e hs hi
      have hmem := hD _ (initialized_cons.mpr (.inl ⟨hs, by rw [hi]; rfl, rfl⟩))
      have hvalue : Follows t (fun _ _ _ => True) (evaluate ask d [] e)
          (fun n => evaluate (unfoldField n) (n - 0) [] e) w :=
        (Follows.of_related fun _ _ => h.expr e .nil).mono fun _ _ _ _ => trivial
      rw [bind_assoc]
      exact hvalue.drop fun _ v hw _ => ih hrest ((hab.later hw).setLeft hmem _)
    · exact ih hrest hab

theorem follows_ownFields {c : ClassInfo} {decl : Tree.ClassDecl} (hc : Declares t c decl)
    (h : Evaluates t ask (fun n => unfoldField n) d) (henv : SameEnv w env env') (hab : AgreeOff D w a b)
    (redirects : Bool) :
    Follows t (AgreeOff fun i =>
        (D i ∨ Initialized t c.fields i) ∧ (Initialized t c.fields i → redirects = true))
      (c.fields.foldlM (initField t (evaluate ask d [])) a) (fun n =>
        (if redirects then [] else fieldSteps c).foldlM (proceed n (n - k) place env') b) w := by
  have hfields : List.Forall₂ (fun id f => t.resolveField ⟨c.name, f.name⟩ = .ok id ∧
      (t.field id).isStatic = f.isStatic ∧ (t.field id).initializer = f.initializer) c.fields decl.fields := by
    refine hc.fields.imp fun id f ⟨hindex, hstatic, hdecl⟩ => ⟨?_, hstatic, ?_⟩
    · rw [hc.name, Table.resolveField_own hc.found hindex]
    · rw [Symbols.FieldInfo.initializer, hdecl]
      rfl
  cases redirects
  · rw [fieldSteps, hc.decl]
    refine (follows_initField h hfields henv hab).mono fun _ _ _ hab => hab.mono ?_
    exact fun i ⟨hD, hn⟩ => ⟨.inl hD, fun hi => absurd hi hn⟩
  · refine (follows_initField_none (D := fun i => D i ∨ Initialized t c.fields i) h (fun _ => .inr)
      (hab.mono fun _ => .inl)).mono fun _ _ _ hab => hab.mono ?_
    exact fun i hi => ⟨hi, fun _ => rfl⟩

/-! ## Constructors -/

def isRedirect : Tree.Initializer → Bool
  | .redirect .. => true
  | _ => false

/-- What the steps of a constructor follow. Fields that its class initializes may differ before. -/
structure Constructs (t : Table) (ask : Nat → EvalM Value) (d : Nat) : Prop where
  constructor : ∀ {w k D place ref id a b actuals actuals'}, t.resolveConstructor ref = .ok id →
    SameActuals w actuals actuals' → AgreeOff D w a b →
    Follows t (AgreeOff fun i => D i ∧ ¬Initialized t (t.ownFields ref.className) i)
      (runConstructor ask d place id a actuals)
      (fun n => interpret (unfoldField n) (n - k) place id b actuals') w
  initializer : ∀ {w k D place c decl env env' init a b}, Declares t c decl → init.Targets decl →
    SameEnv w env env' → AgreeOff D w a b →
    Follows t (AgreeOff fun i => D i ∧ ¬(isRedirect init = true ∧ Initialized t c.fields i))
      (runInitializer ask d env c.name a init) (fun n =>
        proceed n (n - k) place env' b (initializerStep c init)) w

namespace Constructs

variable {l : Tree.Library} {c : ClassInfo} {decl : Tree.ClassDecl}

theorem initializers (hd : Constructs t ask d) (hc : Declares t c decl) {inits : List Tree.Initializer}
    (htargets : ∀ init ∈ inits, init.Targets decl) (henv : SameEnv w env env') (hab : AgreeOff D w a b) :
    Follows t (AgreeOff fun i => D i ∧ ¬(inits.any isRedirect = true ∧ Initialized t c.fields i))
      (inits.foldlM (runInitializer ask d env c.name) a)
      (fun n => (inits.map (initializerStep c)).foldlM
        (proceed n (n - k) place env') b) w := by
  induction inits generalizing w a b D with
  | nil => exact .pure fun _ hw => (hab.later hw).mono fun _ hi => ⟨hi, by simp⟩
  | cons init inits ih =>
    rw [List.forall_mem_cons] at htargets
    simp only [List.foldlM_cons, List.map_cons]
    refine (hd.initializer hc htargets.1 henv hab).bind fun w1 a b hw1 hab => ?_
    refine (ih htargets.2 (hw1.env henv) hab).mono fun _ _ _ hab => hab.mono ?_
    rintro i ⟨⟨hD, hfirst⟩, hrest⟩
    refine ⟨hD, fun ⟨hredirect, hi⟩ => ?_⟩
    rw [List.any_cons, Bool.or_eq_true] at hredirect
    exact hredirect.elim (fun h => hfirst ⟨h, hi⟩) fun h => hrest ⟨h, hi⟩

theorem initializer_succ (h : Evaluates t ask (fun n => unfoldField n) d) (hl : Declared l t)
    (hd : Constructs t ask d) {init : Tree.Initializer} (hc : Declares t c decl) (htarget : init.Targets decl)
    (henv : SameEnv w env env') (hab : AgreeOff D w a b) :
    Follows t (AgreeOff fun i => D i ∧ ¬(isRedirect init = true ∧ Initialized t c.fields i))
      (runInitializer ask (d + 1) env c.name a init) (fun n =>
        proceed n (n - k) place env' b (initializerStep c init)) w := by
  have hcall (written : Position) (target : Tree.MemberRef) (args : Tree.Arguments) :
      Follows t (AgreeOff fun i => D i ∧ ¬Initialized t (t.ownFields target.className) i)
        (do
          let id ← query (·.resolveConstructor target)
          let actuals ← evaluateArguments ask d env args
          runConstructor ask d written id a actuals)
        (fun n => proceed n (n - k) place env' b
          (.call (some written) (some target) args)) w := by
    refine (Follows.query fun _ ht => ht.resolveConstructor target).bind fun w1 id _ hw1 hid => ?_
    obtain ⟨rfl, hid⟩ := hid
    refine (Follows.of_related fun _ hw => h.arguments args ((hw1.trans hw).env henv)).bind
      fun w2 actuals actuals' hw2 hactuals => ?_
    exact hd.constructor hid hactuals (hab.later (hw1.trans hw2))
  cases init with
  | field place name value =>
    have hfound : Follows t (fun _ id _ => t.resolveField ⟨c.name, name⟩ = .ok id)
        (query (·.resolveField ⟨c.name, name⟩)) (fun _ => query (·.resolveField ⟨c.name, name⟩)) w :=
      (Follows.query fun _ ht => ht.resolveField _).mono fun _ _ _ h => h.2
    refine .reads fun s hs => hfound.drop fun w1 id hw1 hid => ?_
    rw [hs.field]
    refine .passed fun _ => ?_
    refine (follows_store h true hid (hw1.env henv) (hab.later hw1)).mono fun _ _ _ hab => ?_
    exact hab.mono fun _ hi => ⟨hi.1, by simp [isRedirect]⟩
  | superCall place target args =>
    have htarget : target.className = decl.super := htarget
    by_cases hsuper : decl.super = ""
    · -- No constructor is found where no superclass is named.
      refine (Follows.query fun _ ht => ht.resolveConstructor target).mono (fun _ _ _ h => h.2) |>.drop
        fun w1 id _ hid => ?_
      exact absurd (htarget.trans hsuper) (hl.creates hid).2.1
    · have hcs : c.super = some target.className := by simp [hc.super, superName, hsuper, htarget]
      simp only [initializerStep, hcs, Option.map_some]
      refine (hcall place target args).mono fun _ _ _ hab => ?_
      exact hab.mono fun _ hi => ⟨hi.1, by simp [isRedirect]⟩
  | redirect place target args =>
    have htarget : target.className = c.name := htarget.trans hc.name.symm
    simp only [initializerStep, ← htarget]
    refine (hcall place target args).mono fun _ _ _ hab => hab.mono fun _ hi => ⟨hi.1, fun hown => hi.2 ?_⟩
    rw [hc.ownFields (htarget.trans hc.name)]
    exact hown.2

/-- A constructor that the steps call without being named. -/
theorem implicit (hl : Declared l t) (hd : Constructs t ask d) {sc : ClassInfo} {super : String}
    (hfound : t.class? super = some sc) (hdecl : sc.decl = some decl) (hsuper : c.super = some super)
    (hab : AgreeOff D w a b) :
    Follows t (AgreeOff D)
      (do
        let target ← query (·.resolveConstructor ⟨super, ""⟩)
        runConstructor ask d place target a {})
      (fun n => ((implicitSuper t c).toList.map fun super => InitStep.call none (some ⟨super, ""⟩) {}).foldlM
        (proceed n (n - k) place env) b) w := by
  have hname : sc.name = super := by simpa using List.find?_some hfound
  obtain ⟨hmem, hsc⟩ := hl.origin sc (List.mem_of_find?_eq_some hfound) decl hdecl
  obtain rfl : decl.name = super := hsc.trans hname
  refine (Follows.query fun _ ht => ht.resolveConstructor ⟨decl.name, ""⟩).mono (fun _ _ _ h => h.2) |>.drop
    fun w1 id hw1 hid => ?_
  obtain ⟨-, -, ⟨-, hexternal⟩ | ⟨decl', hmem', hname, ctor, hctor, hunnamed, -⟩⟩ := hl.creates hid
  · have hconst : (t.function id).isConst = false := by
      simpa using mt hexternal fun h => h decl hmem rfl
    cases d with
    | zero => exact .throw _
    | succ d =>
      refine .reads fun s hs => .passed fun h => ?_
      simp [hs.function id (Table.known_of_resolveConstructor hid), hconst] at h
  · obtain ⟨sc', hdeclares⟩ := hl.classes decl' hmem'
    have hname : decl'.name = decl.name := hname
    obtain rfl : sc = sc' := Option.some_inj.mp (hfound.symm.trans (hname ▸ hdeclares.found))
    obtain rfl : decl = decl' := Option.some_inj.mp (hdecl.symm.trans hdeclares.decl)
    have himplicit : implicitSuper t c = some decl.name := by
      simp only [implicitSuper, hsuper, Option.filter_some, hfound, Option.bind_some, hdecl, Option.map_some,
        Option.any_some]
      rw [if_pos (List.any_eq_true.mpr ⟨ctor, hctor, by simpa using hunnamed⟩)]
    have hnone : Follows t SameActuals (pure {}) (fun n => evaluateArguments (unfoldField n) (n - k) env {}) w1 :=
      .deeper (Y := fun n m => evaluateArguments (unfoldField n) m env {}) (fun _ => rfl)
        (.pure fun _ _ => ⟨.nil, .nil⟩)
    simp only [himplicit, Option.toList_some, List.map_cons, List.map_nil, List.foldlM_cons, List.foldlM_nil,
      bind_pure]
    refine .asks (d := id) (fun _ ht => (ht.resolveConstructor _).trans hid) ?_
    rw [← pure_bind ({} : Actuals) (runConstructor ask d place id a)]
    refine hnone.bind fun w2 actuals actuals' hw2 hactuals => ?_
    refine (hd.constructor hid hactuals (hab.later (hw1.trans hw2))).mono fun _ _ _ hab => ?_
    exact hab.mono fun _ hi => hi.1

theorem superclass (hl : Declared l t) (hd : Constructs t ask d) (c : ClassInfo) (ctor : Tree.Constructor)
    (hab : AgreeOff D w a b) :
    Follows t (AgreeOff D)
      (if ctor.initializers.any fun | .field .. => false | _ => true then pure a
        else match c.super with
          | none => pure a
          | some super =>
            if ((t.class? super).bind (·.decl)).isNone then pure a
            else do
              let target ← query (·.resolveConstructor ⟨super, ""⟩)
              runConstructor ask d place target a {})
      (fun n => (if ctor.isRedirecting || ctor.initializers.any callsSuper then [] else
        (implicitSuper t c).toList.map fun super => InitStep.call none (some ⟨super, ""⟩) {}).foldlM
          (proceed n (n - k) place env) b) w := by
  have hcalls : (ctor.initializers.any fun | .field .. => false | _ => true) =
      (ctor.isRedirecting || ctor.initializers.any callsSuper) := by
    rw [Tree.Constructor.isRedirecting]
    induction ctor.initializers with
    | nil => rfl
    | cons init inits ih => cases init <;> simp [ih, callsSuper]
  have hdone : Follows t (AgreeOff D) (pure a) (fun _ => pure b) w := .pure fun _ hw => hab.later hw
  rw [hcalls]
  split
  · exact hdone
  · rcases hsuper : c.super with _ | super
    · simp only [implicitSuper, hsuper, Option.filter_none]
      exact hdone
    · rcases hfound : (t.class? super).bind (·.decl) with _ | decl
      · simp only [implicitSuper, hsuper, Option.filter_some, hfound, Option.map_none]
        exact hdone
      · obtain ⟨sc, hsc, hdecl⟩ := Option.bind_eq_some_iff.mp hfound
        dsimp only
        rw [hfound]
        exact hd.implicit hl hsc hdecl hsuper hab

theorem constructor_succ (h : Evaluates t ask (fun n => unfoldField n) d) (hl : Declared l t)
    (htargets : l.Delegates) (hd : Constructs t ask d) {ref : Tree.MemberRef} {id : Nat}
    {actuals actuals' : Actuals} (hid : t.resolveConstructor ref = .ok id)
    (hactuals : SameActuals w actuals actuals') (hab : AgreeOff D w a b) :
    Follows t (AgreeOff fun i => D i ∧ ¬Initialized t (t.ownFields ref.className) i)
      (runConstructor ask (d + 1) place id a actuals)
      (fun n => interpret (unfoldField n) (n - k) place id b actuals') w := by
  have hknown := Table.known_of_resolveConstructor hid
  obtain ⟨howner, -, hcreates⟩ := hl.creates hid
  refine .deeper (Y := fun n m => interpret (unfoldField n) m place id b actuals') (fun _ => rfl) ?_
  simp only [runConstructor, interpret]
  refine .get fun s r hs hr => ?_
  simp only [hs.function id hknown, hr.function id hknown, hs.field, hs.class?, hr.class?, hs.instanceFields,
    howner, Option.getD_some]
  refine .passed fun hconst => ?_
  obtain ⟨hnone, -⟩ | ⟨decl, hdecl, hname, ctor, hctor, -, hsome⟩ := hcreates
  · simp only [hnone]
    refine .passed fun hempty => .pure fun _ hw => (hab.later hw).mono fun i hi => ⟨hi, ?_⟩
    rintro ⟨f, hf, hinstance, -⟩
    have hmem := Table.mem_instanceFields hf hinstance
    simp only [Bool.not_eq_true, Bool.not_eq_false', List.isEmpty_iff] at hempty
    simp [hempty] at hmem
  · obtain ⟨c, hc⟩ := hl.classes decl hdecl
    have himplicit : implicitSuper r.table c = implicitSuper t c := by simp only [implicitSuper, hr.class?]
    have hredirects : ctor.isRedirecting = ctor.initializers.any isRedirect := rfl
    simp only [hsome]
    refine .passed fun _ => ?_
    refine (Follows.of_related fun _ hw => h.parameters (hw.actuals hactuals)).bind fun w1 env env' hw1 henv => ?_
    simp only [← hname, hc.found, Option.map_some, Option.getD_some, Option.bind_some, hc.ownFields rfl]
    rw [← hc.name]
    simp only [initSteps, himplicit, List.foldlM_append, bind_assoc]
    refine (follows_ownFields hc h henv (hab.later hw1) ctor.isRedirecting).bind fun w2 a2 b2 hw2 hab => ?_
    refine (hd.initializers hc (htargets decl hdecl ctor hctor) (hw2.env henv) hab).bind
      fun w3 a3 b3 hw3 hab => hd.superclass hl c ctor (hab.mono ?_)
    rintro i ⟨⟨hD, hleft⟩, hwritten⟩
    have hn : ¬Initialized t c.fields i := fun hi => hwritten ⟨hredirects ▸ hleft hi, hi⟩
    exact ⟨hD.resolve_right hn, hn⟩

theorem all (hl : Declared l t) (htargets : l.Delegates)
    (hask : ∀ id w, Related t Same (ask id) (fun n => unfoldField n id) w) (d : Nat) : Constructs t ask d := by
  induction d with
  | zero => exact ⟨fun _ _ _ => .throw _, fun _ _ _ _ => .throw _⟩
  | succ d hd =>
    have h := Evaluates.all hask d
    exact ⟨hd.constructor_succ h hl htargets, hd.initializer_succ h hl⟩

end Constructs

/-- Make an object by the steps of its constructor, from a receiver that is null all over. -/
def assemble (ask : Nat → EvalM Value) (depth : Nat) (place : Position) (target : Tree.MemberRef)
    (args : Tree.Arguments) : EvalM Value := do
  let id ← query (·.resolveConstructor target)
  let actuals ← evaluateArguments ask depth [] args
  let t := (← get).table
  let className := (t.function id).owner.getD ""
  let fields ← interpret ask depth place id (List.replicate (t.instanceFields className).length none) actuals
  let fields ← fields.mapM fun v => match v with
    | some v => pure v
    | none => intern .null
  intern (.object · className fields)

theorem follows_construct {l : Tree.Library} (hl : Declared l t) (htargets : l.Delegates)
    (hask : ∀ id w, Related t Same (ask id) (fun n => unfoldField n id) w) (place : Position)
    (target : Tree.MemberRef) (args : Tree.Arguments) (isConst : Bool) :
    Follows t Same (evaluate ask d [] (.construct place target args isConst))
      (fun n => assemble (unfoldField n) n place target args) w := by
  cases d with
  | zero => exact .throw _
  | succ d =>
    have h := Evaluates.all hask d
    have hd := Constructs.all hl htargets hask d
    simp only [evaluate, assemble]
    refine (Follows.query fun _ ht => ht.resolveConstructor target).bind fun w1 id _ _ hid => ?_
    obtain ⟨rfl, hid⟩ := hid
    have hknown := Table.known_of_resolveConstructor hid
    refine .reads fun s hs => .passed fun _ => ?_
    refine (Follows.of_related fun _ _ => h.arguments (k := 0) args .nil).bind
      fun w2 actuals actuals' _ hactuals => ?_
    refine .get fun s' r hs' hr => ?_
    rw [hs.function id hknown, hr.function id hknown, hs'.instanceFields, hr.instanceFields]
    have hempty := fun n => (⟨_, .replicate n, rfl, fun _ _ => rfl⟩ : AgreeOff (fun _ => False) w2 _ _)
    refine (hd.constructor (k := 0) hid hactuals (hempty _)).bind fun w3 fields fields' _ hfields => ?_
    obtain ⟨c, hsame, -, hc⟩ := hfields
    obtain rfl : fields = c := List.ext_getElem? fun i => hc i fun hi => hi.1
    refine .of_related fun w4 hw4 => ?_
    refine Related.bind (Related.mapM₂ (V := Same) (fun _ _ _ _ hw h => h.mono hw)
      ((hw4.receiver hsame).imp fun v v' hv => ?_)) fun w5 _ _ vs vs' hvs => .intern_object hvs
    cases hv with
    | some hv => exact .pure fun _ hw _ => hv.mono hw
    | none => exact .intern .null .null rfl (List.forall_mem_nil _) (List.forall_mem_nil _)

end

/-- The fields of pairs are made in three constructors: one redirects to another one of its class, which
leaves a field to the superclass. -/
def pairs : List Tree.ClassDecl := [
  { place := .unknown, name := Symbols.objectClass, super := "",
    fields := [⟨0, .unknown, "a", false, false, true, some (.int .unknown 1)⟩],
    constructors := [⟨.unknown, "", true, { id := 1, place := .unknown }, []⟩] },
  { place := .unknown, name := "Pair", super := Symbols.objectClass,
    fields := [⟨2, .unknown, "b", false, false, true, some (.int .unknown 2)⟩,
      ⟨3, .unknown, "c", false, false, true, none⟩],
    constructors := [
      ⟨.unknown, "", true, { id := 4, place := .unknown },
        [.redirect .unknown ⟨"Pair", "of"⟩ { positional := [.int .unknown 3] }]⟩,
      ⟨.unknown, "of", true,
        { id := 5, place := .unknown, positional := [{ id := 6, place := .unknown, name := "x" }], required := 1 },
        [.field .unknown "c" (.get .unknown ⟨6, "x"⟩)]⟩] }]

def pairLibrary : Tree.Library := { place := .unknown, name := "pairs", classes := pairs }

def pairTable : Table where
  classes := pairs.zipWith (fun k (super, fields) => ⟨k.name, super, some k, fields⟩)
    [(none, [0]), (some Symbols.objectClass, [1, 2])]
  fields := ((pairs.flatMap fun k => k.fields.map (k.name, ·)).mapIdx fun i (owner, d) =>
    ({ name := d.name, owner := some owner, decl := some d, offset := i } : Symbols.FieldInfo)).toArray
  functions := (pairs.flatMap fun k => k.constructors.map fun c =>
    ({ name := c.name, owner := some k.name, kind := .constructor, isConst := true,
       member := some (.constructor k c) } : Symbols.FunctionInfo)).toArray
  fieldIndex := [(⟨"Pair", "c"⟩, 2), (⟨"Pair", "b"⟩, 1), (⟨Symbols.objectClass, "a"⟩, 0)]
  constructorIndex := [(⟨"Pair", "of"⟩, 2), (⟨"Pair", ""⟩, 1), (⟨Symbols.objectClass, ""⟩, 0)]

theorem pairs_declared : Declared pairLibrary pairTable where
  classes := by
    simp only [pairLibrary, pairs, List.forall_mem_cons]
    exact ⟨⟨_, rfl, rfl, rfl, rfl, .cons ⟨rfl, rfl, rfl⟩ .nil⟩,
      ⟨_, rfl, rfl, rfl, rfl, .cons ⟨rfl, rfl, rfl⟩ (.cons ⟨rfl, rfl, rfl⟩ .nil)⟩, by simp⟩
  origin := by
    change ∀ c ∈ [(_ : ClassInfo), _], _
    simp only [List.forall_mem_cons]
    refine ⟨?_, ?_, by simp⟩
    all_goals
      rintro k ⟨⟩
      exact ⟨by simp [pairLibrary, pairs], rfl⟩
  creators := by
    change ∀ entry ∈ [(_ : Tree.MemberRef × Nat), _, _], _
    simp only [List.forall_mem_cons]
    exact ⟨⟨rfl, by decide, .inr ⟨_, .tail _ (.head _), rfl, _, .tail _ (.head _), rfl, rfl⟩⟩,
      ⟨rfl, by decide, .inr ⟨_, .tail _ (.head _), rfl, _, .head _, rfl, rfl⟩⟩,
      ⟨rfl, by decide, .inr ⟨_, .head _, rfl, _, .head _, rfl, rfl⟩⟩, by simp⟩

theorem pairs_delegates : pairLibrary.Delegates := by
  simp [Tree.Library.Delegates, pairLibrary, pairs, Tree.Initializer.Targets]

end Flowgraph.Constant
