import Flowgraph.Proofs.Lowering.Calculus
import Flowgraph.Proofs.Lowering.Plan
import Flowgraph.Proofs.Lowering.Rules

/-! # Disciplines

A property of steps that holds of straight code and of branches holds of every
expression, and of every function if it holds of the statements. If it holds only of
code that goes on, it holds of the expressions that throw nothing.
-/

namespace Flowgraph.Tree

mutual

/-- Whether the code of the expression throws. Functions throw in code of their own. -/
def Expr.throws : Expr → Bool
  | .throw .. | .rethrow _ => true
  | .set _ _ value | .staticSet _ _ value => value.throws
  | .propertyGet _ receiver _ | .directGet _ receiver _ => receiver.throws
  | .propertySet _ receiver _ value | .directSet _ receiver _ value =>
    receiver.throws || value.throws
  | .staticCall _ _ args _ | .construct _ _ args _ => args.throws
  | .methodCall _ receiver _ args => receiver.throws || args.throws
  | .isType _ operand _ | .asType _ operand _ | .not _ operand => operand.throws
  | .conditional _ condition yes no => condition.throws || (yes.throws || no.throws)
  | .logical _ _ left right => left.throws || right.throws
  | .concat _ parts => throwsAny parts
  | .list _ elements _ => throwsAny elements
  | .map _ entries _ => throwsEntries entries
  | .letIn _ d body => d.throws || body.throws
  | _ => false

def throwsAny : List Expr → Bool
  | [] => false
  | e :: rest => e.throws || throwsAny rest

def throwsEntries : List MapEntry → Bool
  | [] => false
  | ⟨key, value⟩ :: rest => key.throws || (value.throws || throwsEntries rest)

def throwsNamed : List NamedArgument → Bool
  | [] => false
  | ⟨_, value⟩ :: rest => value.throws || throwsNamed rest

def throwsOption : Option Expr → Bool
  | none => false
  | some e => e.throws

def Arguments.throws : Arguments → Bool
  | ⟨positional, named⟩ => throwsAny positional || throwsNamed named

def Declaration.throws : Declaration → Bool
  | ⟨_, _, _, initializer, _, _⟩ => throwsOption initializer

end

def Initializer.throws : Initializer → Bool
  | .field _ _ value => value.throws
  | .superCall _ _ args | .redirect _ _ args => args.throws

end Flowgraph.Tree

namespace Flowgraph.Lowering

open Flowgraph.Graph (Fragment)
open Scoping (Variable)
open Flowgraph.Tree (Expr MemberRef)

variable {R : State → State → Prop}

/-- The condition leaves one value, whether it has to be negated or not. -/
class Calculus.Decides (d : Calculus R) (c : LowerM (Fragment × Bool)) : Prop where
  made : d.Makes (do return (← c).1) 0 1

/-- The calculus covers the branches in expressions. -/
class Calculus.Complete (d : Calculus R) : Prop extends d.Throwing where
  rethrow : d.Closes → ∀ place, d.Makes (rethrowCaught place) 0 1
  conditional : ∀ {c m m'}, d.Decides c → d.Makes m 0 1 → d.Makes m' 0 1 →
    d.Makes (conditional c m m') 0 1
  logical : ∀ isOr {c c'}, d.Decides c → d.Decides c' → d.Makes (logical isOr c c') 0 1
  ifNull : ∀ {m m'}, d.Makes m 0 1 → d.Makes m' 0 1 → d.Makes (ifNull m m') 0 1

/-- Code may throw only if it need not go on. -/
def Calculus.Allows (d : Calculus R) (throws : Bool) : Prop := throws = true → d.Closes

instance [Shifting R] {d : Calculus R} [d.Throwing] (node : Nat) (place : Position)
    (closure : Option Variable) : d.Made (prologue node place closure) 0 0 := by
  refine made_passive fun e => .followed inferInstance ?_
  have hk : d.Adds (fun f => chain f [enterScope node place, copyParameters
      ((e.layout.this.toList ++ e.layout.parameters).map e.analysis.var)]) 0 0 := inferInstance
  dsimp only
  split
  · infer_instance
  · exact adds_ite inferInstance inferInstance

section Calm

set_option linter.unusedSectionVars false

variable [Calm R] {d : Calculus R} {m m' : LowerM Fragment} {ms ms' : List (LowerM Fragment)}
  {place : Position} {p q : Nat}

theorem Calculus.Allows.left {a b : Bool} (h : d.Allows (a || b)) : d.Allows a :=
  fun ha => h (by rw [ha, Bool.true_or])

theorem Calculus.Allows.right {a b : Bool} (h : d.Allows (a || b)) : d.Allows b :=
  fun hb => h (by rw [hb, Bool.or_true])

/-! ## Calls, closures and fields -/

theorem made_balanced {kind : String} (hm : d.Made m p q) : d.Made (balanced place kind m) p q := by
  refine .at (made_passive fun before => hm.followed (adds_passive fun after => ?_))
  have hframe : d.Adds (fun f => (do
      if after.frame ≠ before.frame then
        malformed place (kind ++ " changed the frame level from " ++ toString before.frame ++
          " to " ++ toString after.frame)
      return f : LowerM Fragment)) 0 0 :=
    adds_ite (adds_passive fun _ => adds_pure) adds_pure
  exact adds_ite (adds_passive fun _ => hframe) hframe

section Carefree

variable [Carefree R]

theorem made_declareVariable (v : Tree.Declaration) (hm : d.Made m 0 1) :
    d.Made (declareVariable v m) 0 0 := by
  refine made_balanced (made_passive fun x => ?_)
  cases v.initializer with
  | none => infer_instance
  | some e =>
    dsimp only
    split <;> infer_instance

theorem adds_pushAll (h : ∀ m ∈ ms, d.Made m 0 1) :
    d.Adds (fun f => chain f (ms.flatMap fun m => [m, pushArgument])) 0 ms.length := by
  induction ms with
  | nil => exact inferInstanceAs (d.Adds (fun f => chain f []) 0 0)
  | cons m ms ih =>
    have := h m List.mem_cons_self
    have := ih fun m hm => h m (List.mem_cons_of_mem _ hm)
    rw [List.flatMap_cons]
    exact .cast inferInstance (by omega) (by simp)

theorem made_pushAll (h : ∀ m ∈ ms, d.Made m 0 1) : d.Made (pushAll ms) 0 ms.length :=
  have := adds_pushAll h
  inferInstanceAs (d.Made (inOrder _) _ _)

instance (function : Nat) [d.Made m 0 1] : d.Made (allocateClosure function m) 0 1 :=
  made_passive fun _ => .named inferInstance fun _ => inferInstance

instance (body : Tree.Function) (name : String) : d.Made (nestedFunction body name) 0 1 := by
  refine made_passive fun e => ?_
  dsimp only
  split
  · exact made_malformed
  · infer_instance

instance (target : Nat) : d.Made (tearOff place target) 0 1 := by
  unfold tearOff
  infer_instance

theorem made_withResult {code : Variable → List (LowerM Fragment)}
    (h : ∀ v, d.Adds (fun f => chain f (code v)) 0 0) : d.Made (withResult code) 0 1 :=
  .named inferInstance h

instance : d.Made (loadThis place) 0 1 := by
  refine made_passive fun e => ?_
  split
  · exact made_malformed
  · infer_instance

theorem made_buildArray (h : ∀ m ∈ ms, d.Made m 0 1) : d.Made (buildArray ms) 0 1 := by
  refine .named inferInstance fun v => ?_
  have hxs : ∀ x ∈ ms.zipIdx, d.Made x.1 0 1 := fun x hx => h _ (List.fst_mem_of_mem_zipIdx hx)
  generalize ms.zipIdx = xs at hxs
  induction xs with
  | nil => exact inferInstanceAs (d.Adds (fun f => chain f []) 0 0)
  | cons x xs ih =>
    have := ih fun x hx => hxs x (List.mem_cons_of_mem _ hx)
    obtain ⟨m, i⟩ := x
    have : d.Made m 0 1 := hxs (m, i) List.mem_cons_self
    have : d.Adds (fun f => chain f [loadLocal v, intConstant i, m, storeIndexed]) 0 0 :=
      inferInstance
    rw [List.flatMap_cons]
    infer_instance

section Calls

variable [hd : d.Throwing]

theorem made_construct (target : MemberRef) (args : Tree.Arguments)
    (h : ∀ m ∈ ms, d.Made m 0 1) (hn : args.count = ms.length) :
    d.Made (construct place target args ms) 0 1 := by
  have hall := made_pushAll h
  rw [← hn] at hall
  refine made_passive fun id => made_passive fun _ => made_passive fun t => ?_
  dsimp only
  split
  · exact .cast inferInstance (by omega) (by omega)
  · exact .named inferInstance fun v => .cast inferInstance (by omega) (by omega)

theorem made_callStatic (target : MemberRef) (args : Tree.Arguments)
    (h : ∀ m ∈ ms, d.Made m 0 1) (h' : ∀ m ∈ ms', d.Made m 0 1)
    (hn : args.count = (ms ++ ms').length) :
    d.Made (callStatic place target args ms ms') 0 1 := by
  have hall := made_pushAll (List.forall_mem_append.mpr ⟨h, h'⟩)
  rw [← hn] at hall
  refine made_passive fun id => made_passive fun _ => made_passive fun t => ?_
  dsimp only
  split
  · rename_i left right _
    have := h left (by simp)
    have := h right (by simp)
    infer_instance
  · exact .cast inferInstance (by omega) (by omega)

instance (field : Nat) : d.Made (staticFieldValue field) 0 1 := by
  have : d.Made (perform (.initStaticField field)) 0 0 := ⟨d.perform (hd.throws ▸ rfl) rfl⟩
  have : d.Made (define (.loadStaticField field)) 0 1 := ⟨d.define rfl rfl rfl⟩
  refine made_passive fun t => ?_
  dsimp only
  split
  · infer_instance
  · split <;> infer_instance

/-- A member that is neither a field nor a function cannot be read. -/
instance (target : MemberRef) : d.Made (getStatic place target) 0 1 := by
  unfold getStatic
  rw [table_bind (c := fun t => t.lookupField target = none ∧
    t.lookupFunction ⟨target.className, Symbols.getterName target.name⟩ = none ∧
    t.lookupFunction target = none) (f := fun t => t.unresolvedMember "field" target)]
  · refine made_passive fun t => ?_
    split
    · exact made_stop fun _ _ _ => ends_throw
    · split <;> first | infer_instance | simp_all
  · rintro env s ⟨hfield, hgetter, hfunction⟩
    simp only [hfield, hgetter, hfunction, runFrom_bind]
    rw [runFrom_query (f := s.store.table.unresolvedMember "field" target)]
    simp only [Symbols.Table.resolveField, hfield]

instance (target : MemberRef) [d.Made m 0 1] : d.Made (setStatic place target m) 0 1 := by
  refine made_passive fun t => ?_
  dsimp only
  split
  · rename_i field _
    have : d.Made (do
        let f ← m
        let v ← makeTemporary
        chain f [loadLocal v, storeStaticField field]) 0 1 := .named inferInstance fun v => inferInstance
    infer_instance
  · exact made_passive fun setter => .named inferInstance fun v => inferInstance

theorem made_getDirect (target : MemberRef) (hm : d.Made m 0 1) : d.Made (getDirect target m) 0 1 := by
  refine .cast (hm.bind (adds_passive (p := 1) (q := 1) fun field => ?_)) rfl rfl
  cases field <;> infer_instance

theorem made_setDirect (target : MemberRef) (hm : d.Made m 0 1) (hm' : d.Made m' 0 1) :
    d.Made (setDirect target m m') 0 1 := by
  refine made_withResult fun result => adds_single ?_
  refine .cast (hm.bind (adds_passive (p := 1) (q := 0) fun field => ?_)) rfl rfl
  cases field <;> infer_instance

theorem made_setProperty (name : String) (hm : d.Made m 0 1) (hm' : d.Made m' 0 1) :
    d.Made (setProperty name m m') 0 1 := made_withResult fun _ => inferInstance

theorem made_fromLiteral (className : String) (h : ∀ m ∈ ms, d.Made m 0 1) :
    d.Made (fromLiteral place className ms) 0 1 := by
  have := made_buildArray h
  have (id : Nat) : d.Made (inOrder
      [nullConstant, pushArgument, buildArray ms, pushArgument, staticCall id 2 []]) 0 1 :=
    inferInstance
  unfold fromLiteral
  infer_instance

theorem made_interpolate (h : ∀ m ∈ ms, d.Made m 0 1) : d.Made (interpolate ms) 0 1 := by
  have := made_buildArray h
  unfold interpolate
  split
  · rename_i part
    have := h part (by simp)
    infer_instance
  · infer_instance

end Calls

/-! ## Expressions -/

theorem length_lowerAll : ∀ es : List Expr, (lowerAll es).length = es.length
  | [] => rfl
  | _ :: es => by simp [lowerAll, length_lowerAll es]

theorem length_lowerNamed : ∀ es : List Tree.NamedArgument, (lowerNamed es).length = es.length
  | [] => rfl
  | ⟨_, _⟩ :: es => by simp [lowerNamed, length_lowerNamed es]

theorem count_eq (positional : List Expr) (named : List Tree.NamedArgument) :
    (⟨positional, named⟩ : Tree.Arguments).count =
      (lowerAll positional ++ lowerNamed named).length := by
  simp [Tree.Arguments.count, length_lowerAll, length_lowerNamed]

/-- Either way of lowering an expression leaves one value on the stack. -/
structure Calculus.Yields (d : Calculus R) (l : Lowered) : Prop where
  value : d.Made l.value 0 1
  condition : d.Decides l.condition

theorem yields_plain (hm : d.Made m 0 1) : d.Yields (.plain m) where
  value := hm
  condition := ⟨by simpa only [Lowered.plain, bind_assoc, pure_bind, bind_pure] using hm.made⟩

theorem Calculus.Yields.negation {l : Lowered} (h : d.Yields l) : d.Yields (.negation place l) where
  value := have := h.value; .at inferInstance
  condition := ⟨by simpa only [Lowered.negation, bind_assoc, pure_bind] using h.condition.made⟩

section Expressions

variable (d) [hd : d.Complete]

mutual

theorem yields_lower : ∀ e : Expr, d.Allows e.throws → d.Yields (lower e)
  | .absent, _ => yields_plain (made_stop fun _ _ _ => ends_inconsistent)
  | .invalid .., _ => yields_plain made_malformed
  | .null .., _ | .bool .., _ | .int .., _ | .double .., _ | .string .., _ | .symbol .., _
  | .typeLit .., _ | .this _, _ | .staticGet .., _ | .function .., _ => yields_plain (.at inferInstance)
  | .get .., _ => yields_plain (.at (made_passive fun _ => inferInstance))
  | .set _ _ value, h => yields_plain <| .at <|
    have := (yields_lower value h).value
    inferInstance
  | .staticSet _ _ value, h => yields_plain <| .at <|
    have := (yields_lower value h).value
    inferInstance
  | .propertyGet _ receiver _, h => yields_plain <| .at <|
    have := (yields_lower receiver h).value
    inferInstance
  | .propertySet _ receiver name value, h => yields_plain <| .at <|
    made_setProperty name (yields_lower receiver h.left).value (yields_lower value h.right).value
  | .directGet _ receiver target, h => yields_plain <| .at <|
    made_getDirect target (yields_lower receiver h).value
  | .directSet _ receiver target value, h => yields_plain <| .at <|
    made_setDirect target (yields_lower receiver h.left).value (yields_lower value h.right).value
  | .staticCall _ target ⟨positional, named⟩ isConst, h => yields_plain <| .at <|
    made_ite inferInstance (made_callStatic target ⟨positional, named⟩
      (made_lowerAll positional h.left) (made_lowerNamed named h.right) (count_eq positional named))
  | .methodCall _ receiver _ ⟨positional, named⟩, h => yields_plain <| .at <| by
    have := (yields_lower receiver h.left).value
    have := made_pushAll (List.forall_mem_append.mpr
      ⟨made_lowerAll positional h.right.left, made_lowerNamed named h.right.right⟩)
    rw [← count_eq] at this
    exact .cast inferInstance (by omega) (by omega)
  | .construct _ target ⟨positional, named⟩ isConst, h => yields_plain <| .at <|
    made_ite inferInstance (made_construct target ⟨positional, named⟩
      (List.forall_mem_append.mpr ⟨made_lowerAll positional h.left, made_lowerNamed named h.right⟩)
      (count_eq positional named))
  | .isType _ operand _, h | .asType _ operand _, h => yields_plain <| .at <|
    have := (yields_lower operand h).value
    inferInstance
  | .conditional _ condition yes no, h => yields_plain <| .at ⟨hd.conditional
    (yields_lower condition h.left).condition (yields_lower yes h.right.left).value.made
    (yields_lower no h.right.right).value.made⟩
  | .logical _ .ifNull left right, h => yields_plain <| .at ⟨hd.ifNull
    (yields_lower left h.left).value.made (yields_lower right h.right).value.made⟩
  | .logical _ .and left right, h | .logical _ .or left right, h => yields_plain <| .at
    ⟨hd.logical _ (yields_lower left h.left).condition (yields_lower right h.right).condition⟩
  | .not _ operand, h => (yields_lower operand h).negation
  | .concat _ parts, h => yields_plain (.at (made_interpolate (made_lowerAll parts h)))
  | .list _ elements isConst, h => yields_plain <| .at <|
    made_ite inferInstance (made_fromLiteral _ (made_lowerAll elements h))
  | .map _ entries isConst, h => yields_plain <| .at <|
    made_ite inferInstance (made_fromLiteral _ (made_lowerEntries entries h))
  | .letIn _ ⟨id, place, name, initializer, isConst, isFinal⟩ body, h => yields_plain <| .at <|
    have := made_declareVariable ⟨id, place, name, initializer, isConst, isFinal⟩
      (made_lowerOption initializer h.left)
    have := (yields_lower body h.right).value
    inferInstance
  | .throw _ value, h => yields_plain <| .at <|
    have : d.Closing := ⟨h rfl⟩
    have := (yields_lower value fun _ => h rfl).value
    inferInstance
  | .rethrow _, h => yields_plain (.at ⟨hd.rethrow (h rfl) _⟩)

theorem made_lowerAll : ∀ es : List Expr, d.Allows (Tree.throwsAny es) →
    ∀ m ∈ lowerAll es, d.Made m 0 1
  | [], _, _, hm => nomatch hm
  | e :: rest, h, m, hm => (List.mem_cons.mp hm).elim (· ▸ (yields_lower e h.left).value)
    (made_lowerAll rest h.right m)

theorem made_lowerNamed : ∀ es : List Tree.NamedArgument, d.Allows (Tree.throwsNamed es) →
    ∀ m ∈ lowerNamed es, d.Made m 0 1
  | [], _, _, hm => nomatch hm
  | ⟨_, value⟩ :: rest, h, m, hm => (List.mem_cons.mp hm).elim (· ▸ (yields_lower value h.left).value)
    (made_lowerNamed rest h.right m)

theorem made_lowerEntries : ∀ es : List Tree.MapEntry, d.Allows (Tree.throwsEntries es) →
    ∀ m ∈ lowerEntries es, d.Made m 0 1
  | [], _, _, hm => nomatch hm
  | ⟨key, value⟩ :: rest, h, m, hm => by
    rcases List.mem_cons.mp hm with rfl | hm
    · exact (yields_lower key h.left).value
    · rcases List.mem_cons.mp hm with rfl | hm
      · exact (yields_lower value h.right.left).value
      · exact made_lowerEntries rest h.right.right m hm

theorem made_lowerOption : ∀ e : Option Expr, d.Allows (Tree.throwsOption e) →
    d.Made (lowerOption e) 0 1
  | none, _ => inferInstanceAs (d.Made nullConstant 0 1)
  | some e, h => (yields_lower e h).value

end

theorem made_lowerExpr (e : Expr) (h : d.Allows e.throws) : d.Made (lowerExpr e) 0 1 :=
  (yields_lower d e h).value

theorem made_declaration (v : Tree.Declaration) (h : d.Allows v.throws) :
    d.Made (declareVariable v (lowerOption v.initializer)) 0 0 := by
  obtain ⟨id, place, name, initializer, isConst, isFinal⟩ := v
  exact made_declareVariable _ (made_lowerOption d initializer h)

theorem made_lowerArguments (args : Tree.Arguments) (h : d.Allows args.throws) :
    d.Made (lowerArguments args) 0 args.count := by
  obtain ⟨positional, named⟩ := args
  have := made_pushAll (List.forall_mem_append.mpr
    ⟨made_lowerAll d positional h.left, made_lowerNamed d named h.right⟩)
  rwa [← count_eq] at this

/-! ## Functions -/

instance : d.Made loadReceiver 0 1 := made_passive fun _ => made_passive fun _ => inferInstance

theorem made_initializeField (field : Nat) (value : Expr) (h : d.Allows value.throws) :
    d.Made (initializeField field value) 0 0 := by
  have := made_lowerExpr d value h
  refine made_passive fun t => ?_
  dsimp only
  split
  · exact made_passive fun _ => inferInstance
  · infer_instance

theorem made_delegate (place : Position) (target : Nat) (args : Tree.Arguments)
    (h : d.Allows args.throws) : d.Made (delegate place target args) 0 0 := by
  have hargs := made_lowerArguments d args h
  have hcall : d.Made (inOrder [loadReceiver, pushArgument, lowerArguments args,
      staticCall target (args.count + 1) args.names, drop]) 0 0 :=
    .cast inferInstance (by omega) (by omega)
  have h : d.Made (do
      checkArguments place target args
      inOrder [loadReceiver, pushArgument, lowerArguments args,
        staticCall target (args.count + 1) args.names, drop]) 0 0 := made_passive fun _ => hcall
  refine made_passive fun t => ?_
  dsimp only
  split
  · exact made_passive fun _ => h
  · exact h

theorem made_runInitializer (c : Symbols.ClassInfo) (i : Tree.Initializer) (h : d.Allows i.throws) :
    d.Made (runInitializer c i) 0 0 := by
  cases i with
  | field => exact made_passive fun field => made_initializeField d _ _ h
  | superCall =>
    dsimp only [runInitializer]
    split
    · exact made_malformed
    · exact made_passive fun _ => made_delegate d _ _ _ h
  | redirect => exact made_passive fun _ => made_delegate d _ _ _ h

theorem made_constructorPieces (t : Symbols.Table) (c : Symbols.ClassInfo) (ctor : Tree.Constructor)
    (callsSuper : Bool)
    (hf : ∀ f ∈ (c.decl.map (·.fields)).getD [], d.Allows (Tree.throwsOption f.initializer))
    (hi : ∀ i ∈ ctor.initializers, d.Allows i.throws) :
    ∀ m ∈ (if ctor.isRedirecting then [] else fieldInitializers c) ++
      ctor.initializers.map (runInitializer c) ++
      (if ctor.isRedirecting || callsSuper then [] else
        (implicitSuper t c).toList.map fun super => do
          let id ← query (·.resolveConstructor ⟨super, ""⟩)
          delegate ctor.place id {}), d.Made m 0 0 := by
  refine List.forall_mem_append.mpr ⟨List.forall_mem_append.mpr ⟨?_, ?_⟩, ?_⟩
  · split
    · simp
    · intro p hp
      obtain ⟨f, hmem, hp⟩ := List.mem_filterMap.mp hp
      split at hp
      · cases hp
      · obtain ⟨value, hvalue, rfl⟩ := Option.map_eq_some_iff.mp hp
        have hf := hf f hmem
        rw [hvalue] at hf
        exact made_passive fun _ => made_initializeField d _ _ hf
  · intro p hp
    obtain ⟨i, hmem, rfl⟩ := List.mem_map.mp hp
    exact made_runInitializer d c i (hi i hmem)
  · split
    · simp
    · intro p hp
      obtain ⟨super, -, rfl⟩ := List.mem_map.mp hp
      exact made_passive fun _ => made_delegate d _ _ _ nofun

end Expressions

end Carefree

end Calm

/-! ## Untyped disciplines -/

variable [Steady R] {m : LowerM Fragment} {p q : Nat}

/-- Rules that hold of straight code, whatever is on the stack. -/
structure Pieces (R : State → State → Prop) extends Rules R where
  Closes : Prop
  throws : Bool
  define : ∀ {op origin}, fits throws op = true → Makes (define op origin)
  perform : ∀ {op origin}, fits throws op = true → Makes (perform op origin)
  raise : Closes → ∀ {exception},
    Makes (do return (← Lowering.define (.throw exception)).closed)
  return_ : Closes → ∀ {value}, Makes (do return (← Lowering.perform (.giveBack value)).closed)

/-- Both properties hold of all expressions too. -/
structure Discipline extends Pieces Unmoved where
  throwing : throws = true
  rethrow : Closes → ∀ place, Makes (rethrowCaught place)
  conditional : ∀ {c yes no}, Makes (do return (← c).1) → Makes yes → Makes no →
    Makes (conditional c yes no)
  logical : ∀ isOr {c c'}, Makes (do return (← c).1) → Makes (do return (← c').1) →
    Makes (logical isOr c c')
  ifNull : ∀ {left right}, Makes left → Makes right → Makes (ifNull left right)

namespace Pieces

/-- How many values there are is not asked. -/
def calculus [Popping R] (d : Pieces R) : Calculus R where
  Makes m _ _ := d.Makes m
  Continues k _ _ := d.Continues k
  Closes := d.Closes
  throws := d.throws
  empty := d.empty
  stop := d.stop
  bind := d.bind
  passive := d.idle
  pure := d.pure
  trans := d.trans
  append := d.append
  rest := d.rest
  above := d.idle
  named hm hk := d.bind hm (d.rest hk)
  define h _ _ := d.define h
  perform h _ := d.perform h
  unary h _ _ := d.idle fun u => d.define (h u)
  storeField _ _ := d.idle fun _ => d.idle fun _ => d.perform rfl
  storeStaticField _ := d.idle fun _ => d.perform rfl
  storeIndexed := d.idle fun _ => d.idle fun _ => d.idle fun _ => d.perform rfl
  strictCompare _ := d.idle fun _ => d.idle fun _ => d.define rfl
  staticCall h _ _ _ := d.idle fun _ => d.define (h ▸ rfl)
  instanceCall h _ _ _ := d.idle fun _ => d.define (h ▸ rfl)
  pushArgument :=
    have := within_pending (R := R) (· + 1)
    d.idle fun _ => d.idle fun _ => d.define rfl
  drop := d.idle fun _ => d.idle fun _ => by
    split
    · exact d.empty
    · exact d.perform rfl
  giveBack h := d.idle fun _ => d.return_ h
  throwException h := d.idle fun _ => d.raise h

variable {d : Pieces R}

@[simp] theorem made [Popping R] [h : d.calculus.Made m p q] : d.Makes m := h.made

/-- The condition makes code, whether it has to be negated or not. -/
def Decides (d : Pieces R) (c : LowerM (Fragment × Bool)) : Prop := d.Makes (do return (← c).1)

abbrev Allows [Popping R] (d : Pieces R) (throws : Bool) : Prop := d.calculus.Allows throws

end Pieces

instance (d : Discipline) : d.calculus.Complete where
  throws := d.throwing
  rethrow := d.rethrow
  conditional hc := d.conditional hc.made
  logical isOr _ _ hc hc' := d.logical isOr hc.made hc'.made
  ifNull := d.ifNull

namespace Discipline

variable {d : Discipline}

theorem lowerExpr (e : Expr) (h : d.Allows e.throws) : d.Makes (lowerExpr e) :=
  (made_lowerExpr _ e h).made

theorem lowerCondition (e : Expr) (h : d.Allows e.throws) : d.Decides (lowerCondition e) :=
  (yields_lower _ e h).condition.made

theorem lowerOption (e : Option Expr) (h : d.Allows (Tree.throwsOption e)) :
    d.Makes (lowerOption e) := (made_lowerOption _ e h).made

theorem declaration (v : Tree.Declaration) (h : d.Allows v.throws) :
    d.Makes (Lowering.declareVariable v (Lowering.lowerOption v.initializer)) :=
  (made_declaration _ v h).made

end Discipline

end Flowgraph.Lowering
