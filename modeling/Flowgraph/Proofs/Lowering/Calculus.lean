import Flowgraph.Proofs.Lowering.Idle

/-! # Calculi of code

The code of frames, variables and expressions is put together from few kinds of
pieces. Each takes some values from the stack and leaves others there, and how many is
found from the pieces that it is made of. A property of steps that holds of single
instructions and of what is put together from them holds of all this code.
-/

namespace Flowgraph.Lowering

open Flowgraph.Graph (Fragment Op Origin Slot Use)
open Scoping (Scope Variable)

/-- The instruction neither starts nor ends a block. -/
def straight (op : Op) : Bool := op.asEntry.isNone && !op.isTerminator

/-- The instruction is straight, and throws only where it may. -/
def fits (throws : Bool) (op : Op) : Bool := straight op && (!op.mayThrow || throws)

theorem fits_true {op : Op} (h : fits true op = true) : straight op = true := by
  simpa [fits] using h

/-- A property `Makes` of steps that make code, and the property `Continues` of steps that
put code behind the fragment they are given. Both say how many values are taken from the
stack, and how many are left there. Steps within `R` may stand anywhere. -/
structure Calculus (R : State → State → Prop) where
  Makes : LowerM Fragment → Nat → Nat → Prop
  Continues : (Fragment → LowerM Fragment) → Nat → Nat → Prop
  /-- Whether they hold of code that does not go on, too. -/
  Closes : Prop
  /-- Whether they hold of code that throws, too. -/
  throws : Bool
  empty : Makes (pure .empty) 0 0
  stop : ∀ {m p q}, (∀ env s Q, Ends env m s Q) → Makes m p q
  bind : ∀ {m k p q p' q'}, Makes m p q → Continues k p' q' →
    Makes (m >>= k) (p + (p' - q)) (q' + (q - p'))
  passive : ∀ {α : Type} {x : LowerM α} {k : α → LowerM Fragment} {p q} [Within R x],
    (∀ a, Makes (k a) p q) → Makes (x >>= k) p q
  pure : Continues pure 0 0
  trans : ∀ {k k' p q p' q'}, Continues k p q → Continues k' p' q' →
    Continues (fun f => k f >>= k') (p + (p' - q)) (q' + (q - p'))
  append : ∀ {m p q}, Makes m p q → Continues (fun f => m >>= append f) p q
  rest : ∀ {α : Type} {x : LowerM α} {k : α → Fragment → LowerM Fragment} {p q} [Within R x],
    (∀ a, Continues (k a) p q) → Continues (fun f => x >>= fun a => k a f) p q
  /-- Code may be made above a value that has a name. -/
  above : ∀ {k : Variable → LowerM Fragment}, (∀ v, Makes (k v) 0 0) →
    Makes (makeTemporary >>= k) 1 1
  /-- A value that was just made may get a name. -/
  named : ∀ {m} {k : Variable → Fragment → LowerM Fragment} {p q p' q'}, Makes m p (q + 1) →
    (∀ v, Continues (k v) p' q') → Makes (m >>= fun f => makeTemporary >>= fun v => k v f)
      (p + (p' - (q + 1))) (q' + (q + 1 - p'))
  define : ∀ {op origin}, fits throws op = true → op.isDefinition = true → op.inputs = [] →
    Makes (define op origin) 0 1
  perform : ∀ {op origin}, fits throws op = true → op.inputs = [] → Makes (perform op origin) 0 0
  unary : ∀ {op : Use → Op} {origin}, (∀ u, fits throws (op u) = true) →
    (∀ u, (op u).isDefinition = true) → (∀ u, (op u).inputs = [u]) →
    Makes (popUse >>= fun u => Lowering.define (op u) origin) 1 1
  storeField : ∀ slot origin, Makes (storeField slot origin) 2 0
  storeStaticField : ∀ field, Makes (storeStaticField field) 1 0
  storeIndexed : Makes storeIndexed 3 0
  strictCompare : ∀ negated, Makes (strictCompare negated) 2 1
  staticCall : throws = true → ∀ f n names, Makes (staticCall f n names) n 1
  instanceCall : throws = true → ∀ name n names, Makes (instanceCall name n names) n 1
  pushArgument : Makes pushArgument 1 1
  drop : Makes drop 1 0
  giveBack : Closes → Makes giveBack 1 0
  throwException : Closes → Makes throwException 1 1

variable {R : State → State → Prop}

/-- The step makes code that takes `p` values from the stack and leaves `q`. -/
class Calculus.Made (d : Calculus R) (m : LowerM Fragment) (p q : outParam Nat) : Prop where
  made : d.Makes m p q

/-- The step puts such code behind the fragment it is given. -/
class Calculus.Adds (d : Calculus R) (k : Fragment → LowerM Fragment) (p q : outParam Nat) : Prop where
  made : d.Continues k p q

class Calculus.Throwing (d : Calculus R) : Prop where
  throws : d.throws = true

class Calculus.Closing (d : Calculus R) : Prop where
  closes : d.Closes

/-! ## Rules -/

section Rules

variable {α : Type} {d : Calculus R} {m m' : LowerM Fragment} {ms ms' : List (LowerM Fragment)}
  {k k' : Fragment → LowerM Fragment} {p q p' q' : Nat} {place : Position}

theorem Calculus.Made.cast (h : d.Made m p q) (hp : p = p') (hq : q = q') : d.Made m p' q' := hp ▸ hq ▸ h

theorem Calculus.Adds.cast (h : d.Adds k p q) (hp : p = p') (hq : q = q') : d.Adds k p' q' := hp ▸ hq ▸ h

theorem adds_pure : d.Adds pure 0 0 := ⟨d.pure⟩

instance : d.Adds pure 0 0 := adds_pure

theorem Calculus.Made.bind (hm : d.Made m p q) (hk : d.Adds k p' q') :
    d.Made (m >>= k) (p + (p' - q)) (q' + (q - p')) := ⟨d.bind hm.made hk.made⟩

instance [hm : d.Made m p q] [hk : d.Adds k p' q'] :
    d.Made (m >>= k) (p + (p' - q)) (q' + (q - p')) := hm.bind hk

instance [hk : d.Adds k p q] [hk' : d.Adds k' p' q'] :
    d.Adds (fun f => k f >>= k') (p + (p' - q)) (q' + (q - p')) := ⟨d.trans hk.made hk'.made⟩

instance : d.Adds (fun f => chain f []) 0 0 := ⟨d.pure⟩

instance [hm : d.Made m p q] [hms : d.Adds (fun f => chain f ms) p' q'] :
    d.Adds (fun f => chain f (m :: ms)) (p + (p' - q)) (q' + (q - p')) := by
  have := d.trans (d.append hm.made) hms.made
  exact ⟨by simpa only [bind_assoc, chain] using this⟩

theorem adds_single (hm : d.Made m p q) : d.Adds (fun f => chain f [m]) p q :=
  Calculus.Adds.cast inferInstance (by omega) (by omega)

theorem chain_append (f : Fragment) (ms ms' : List (LowerM Fragment)) :
    chain f (ms ++ ms') = chain f ms >>= fun g => chain g ms' := by
  induction ms generalizing f with
  | nil => simp only [List.nil_append, chain, pure_bind]
  | cons m ms ih => simp only [List.cons_append, chain, bind_assoc, ih]

instance [d.Adds (fun f => chain f ms) p q] [d.Adds (fun f => chain f ms') p' q'] :
    d.Adds (fun f => chain f (ms ++ ms')) (p + (p' - q)) (q' + (q - p')) := by
  simp only [chain_append]
  infer_instance

instance : d.Made (pure .empty) 0 0 := ⟨d.empty⟩

instance [hk : d.Adds (fun f => chain f ms) p q] : d.Made (inOrder ms) p q := by
  have := d.bind d.empty hk.made
  rw [pure_bind] at this
  exact Calculus.Made.cast ⟨this⟩ (by omega) (by omega)

theorem made_passive {x : LowerM α} {k : α → LowerM Fragment} [Within R x]
    (hk : ∀ a, d.Made (k a) p q) : d.Made (x >>= k) p q := ⟨d.passive fun a => (hk a).made⟩

instance {x : LowerM α} {k : α → LowerM Fragment} [Within R x] [∀ a, d.Made (k a) p q] :
    d.Made (x >>= k) p q := made_passive inferInstance

theorem adds_passive {x : LowerM α} {k : α → Fragment → LowerM Fragment} [Within R x]
    (hk : ∀ a, d.Adds (k a) p q) : d.Adds (fun f => x >>= fun a => k a f) p q :=
  ⟨d.rest fun a => (hk a).made⟩

instance {x : LowerM α} {k : α → Fragment → LowerM Fragment} [Within R x]
    [∀ a, d.Adds (k a) p q] : d.Adds (fun f => x >>= fun a => k a f) p q :=
  adds_passive inferInstance

instance {c : Prop} [Decidable c] [hm : d.Made m p q] [hm' : d.Made m' p q] :
    d.Made (if c then m else m') p q := by
  split
  · exact hm
  · exact hm'

instance {c : Prop} [Decidable c] [hk : d.Adds k p q] [hk' : d.Adds k' p q] :
    d.Adds (fun f => if c then k f else k' f) p q := by
  by_cases hc : c
  · simpa only [hc, if_true] using hk
  · simpa only [hc, if_false] using hk'

theorem made_ite {c : Prop} [Decidable c] (hm : d.Made m p q) (hm' : d.Made m' p q) :
    d.Made (if c then m else m') p q := inferInstance

theorem adds_ite {c : Prop} [Decidable c] (hk : d.Adds k p q) (hk' : d.Adds k' p q) :
    d.Adds (fun f => if c then k f else k' f) p q := inferInstance

theorem made_stop {x : LowerM Fragment} (h : ∀ env s Q, Ends env x s Q) : d.Made x p q := ⟨d.stop h⟩

theorem made_malformed {message : String} : d.Made (malformed place message) p q :=
  made_stop fun _ _ _ => ends_malformed

theorem Calculus.Made.followed (hm : d.Made m p q) (hk : d.Adds k 0 0) : d.Made (m >>= k) p q :=
  (hm.bind hk).cast (by omega) (by omega)

theorem Calculus.Made.named {k : Variable → Fragment → LowerM Fragment} (hm : d.Made m p (q + 1))
    (hk : ∀ v, d.Adds (k v) 0 0) :
    d.Made (m >>= fun f => makeTemporary >>= fun v => k v f) p (q + 1) :=
  .cast ⟨d.named hm.made fun v => (hk v).made⟩ (by omega) (by omega)

theorem Calculus.Made.between {x y : LowerM PUnit} [Within R x] [Within R y] (hm : d.Made m p q) :
    d.Made (do x; let f ← m; y; return f) p q :=
  made_passive fun _ => hm.followed (adds_passive fun _ => inferInstance)

theorem Calculus.Made.at [Calm R] (hm : d.Made m p q) : d.Made (at_ place m) p q :=
  made_passive fun _ => hm.between

end Rules

/-! ## Instructions -/

section Instructions

variable {d : Calculus R} {origin : Option Origin}

instance (v : Constant.Value) : d.Made (constant v) 0 1 := ⟨d.define rfl rfl rfl⟩

instance [Carefree R] (make : Nat → Constant.Value) : d.Made (newConstant make) 0 1 :=
  inferInstanceAs (d.Made (evaluating _ >>= fun v => constant v) 0 1)

instance [Carefree R] : d.Made nullConstant 0 1 := inferInstanceAs (d.Made (newConstant _) 0 1)

instance [Carefree R] (n : Nat) : d.Made (intConstant n) 0 1 :=
  inferInstanceAs (d.Made (newConstant _) 0 1)

instance [Carefree R] (b : Bool) : d.Made (boolConstant b) 0 1 :=
  inferInstanceAs (d.Made (newConstant _) 0 1)

instance [Carefree R] (e : Tree.Expr) : d.Made (foldedConstant e) 0 1 :=
  inferInstanceAs (d.Made (evaluating _ >>= fun v => constant v) 0 1)

instance [Carefree R] (c : String) : d.Made (typeConstant c) 0 1 :=
  inferInstanceAs (d.Made (query _ >>= fun _ => newConstant _) 0 1)

instance (v : Variable) : d.Made (loadLocal v) 0 1 := ⟨d.define rfl rfl rfl⟩

instance (v : Variable) : d.Made (storeLocal v) 1 1 :=
  ⟨d.unary (fun _ => rfl) (fun _ => rfl) fun _ => rfl⟩

instance (c : String) : d.Made (allocateObject c) 0 1 := ⟨d.define rfl rfl rfl⟩

instance (slot : Slot) : d.Made (loadField slot origin) 1 1 :=
  ⟨d.unary (fun _ => rfl) (fun _ => rfl) fun _ => rfl⟩

instance : d.Made booleanNegate 1 1 := ⟨d.unary (fun _ => rfl) (fun _ => rfl) fun _ => rfl⟩

instance : d.Made createArray 1 1 := ⟨d.unary (fun _ => rfl) (fun _ => rfl) fun _ => rfl⟩

instance (slot : Slot) : d.Made (storeField slot origin) 2 0 := ⟨d.storeField slot origin⟩

instance (field : Nat) : d.Made (storeStaticField field) 1 0 := ⟨d.storeStaticField field⟩

instance : d.Made storeIndexed 3 0 := ⟨d.storeIndexed⟩

instance (negated : Bool) : d.Made (strictCompare negated) 2 1 := ⟨d.strictCompare negated⟩

instance [h : d.Throwing] (f n : Nat) (names : List String) :
    d.Made (staticCall f n names) n 1 := ⟨d.staticCall h.throws f n names⟩

instance [h : d.Throwing] (name : String) (n : Nat) (names : List String) :
    d.Made (instanceCall name n names) n 1 := ⟨d.instanceCall h.throws name n names⟩

instance : d.Made pushArgument 1 1 := ⟨d.pushArgument⟩

instance : d.Made drop 1 0 := ⟨d.drop⟩

instance [h : d.Closing] : d.Made giveBack 1 0 := ⟨d.giveBack h.closes⟩

instance [h : d.Closing] : d.Made throwException 1 1 := ⟨d.throwException h.closes⟩

instance [Calm R] [h : d.Throwing] : d.Made checkStackOverflow 0 0 := by
  have (n : Int) : d.Made (perform (.checkStackOverflow n)) 0 0 :=
    ⟨d.perform (h.throws ▸ rfl) rfl⟩
  unfold checkStackOverflow
  infer_instance

end Instructions

/-! ## Variables and frames -/

section Frames

variable [Calm R] {d : Calculus R}

instance : d.Made loadFrameVariable 0 1 :=
  inferInstanceAs (d.Made (frameVariable >>= fun v => loadLocal v) 0 1)

instance : d.Made storeFrameVariable 1 0 :=
  inferInstanceAs (d.Made (frameVariable >>= fun v => inOrder [storeLocal v, drop]) 1 0)

omit [Calm R] in
theorem adds_links (n : Nat) :
    d.Adds (fun f => chain f (List.replicate (n + 1) (loadField .frameParent))) 1 1 := by
  induction n with
  | zero => exact inferInstanceAs (d.Adds (fun f => chain f [loadField .frameParent]) 1 1)
  | succ n ih =>
    exact inferInstanceAs (d.Adds (fun f =>
      chain f (loadField .frameParent :: List.replicate (n + 1) (loadField .frameParent))) 1 1)

instance (n : Nat) :
    d.Made (inOrder (loadFrameVariable :: List.replicate n (loadField .frameParent))) 0 1 := by
  cases n with
  | zero => exact inferInstanceAs (d.Made (inOrder [loadFrameVariable]) 0 1)
  | succ n =>
    have := adds_links (d := d) n
    infer_instance

instance (level : Int) : d.Made (loadFrame level) 0 1 := by
  unfold loadFrame
  infer_instance

instance (v : Variable) : d.Made (loadVariable v) 0 1 := by
  unfold loadVariable
  split <;> infer_instance

/-- The value of a captured variable is named, so that it stays below the frame. -/
instance (v : Variable) : d.Made (storeVariable v) 1 1 := by
  have (value : Variable) : d.Made (inOrder [loadFrame v.level, loadLocal value,
      storeField (.frameVariable v.index) (some (.variable v))]) 0 0 := inferInstance
  exact made_ite ⟨d.above fun value => (this value).made⟩ inferInstance

instance (params : List Variable) : d.Made (copyParameters params) 0 0 := by
  unfold copyParameters
  generalize params.filter (·.isCaptured) = params
  have : d.Adds (fun f => chain f (params.flatMap fun p =>
      [loadLocal { p with isCaptured := false, level := 0, index := 0 }, storeVariable p,
        drop])) 0 0 := by
    induction params with
    | nil => exact inferInstanceAs (d.Adds (fun f => chain f []) 0 0)
    | cons p params ih =>
      rw [List.flatMap_cons]
      infer_instance
  infer_instance

instance : d.Made cloneFrame 0 0 := by
  have : d.Made (do define (.cloneContext (← popUse))) 1 1 :=
    ⟨d.unary (fun _ => rfl) (fun _ => rfl) fun _ => rfl⟩
  unfold cloneFrame
  infer_instance

end Frames

section Levels

variable [Shifting R] {d : Calculus R}

instance (scope : Scope) : d.Made (pushFrame scope) 0 0 := by
  have hframe : d.Made (define (.allocateContext scope.captured.length)
      (some (.scope scope.node))) 0 1 := ⟨d.define rfl rfl rfl⟩
  let enter (f : Fragment) : LowerM Fragment := do
    let f ← chain f [storeFrameVariable]
    setFrame scope.level
    return f
  have (frame : Variable) : d.Adds (fun f =>
      chain f [loadLocal frame, loadFrameVariable, storeField .frameParent] >>= enter) 1 0 :=
    inferInstanceAs (d.Adds (fun f => _ >>= fun g =>
      chain g [storeFrameVariable] >>= fun f => setFrame scope.level >>= fun _ => pure f) 1 0)
  have : d.Adds (fun f => pure f >>= enter) 1 0 :=
    inferInstanceAs (d.Adds (fun f => pure f >>= fun g =>
      chain g [storeFrameVariable] >>= fun f => setFrame scope.level >>= fun _ => pure f) 1 0)
  have (frame : Variable) : d.Adds (fun f => get >>= fun s : State => if 0 ≤ s.frame then
      chain f [loadLocal frame, loadFrameVariable, storeField .frameParent] >>= enter
    else pure f >>= enter) 1 0 := inferInstance
  exact ⟨d.named hframe.made fun v => (this v).made⟩

instance : d.Made popFrame 0 0 := by
  unfold popFrame
  infer_instance

instance [Carefree R] (level : Int) : d.Made (adjustFrame level) 0 0 := by
  have : d.Made (if level < 0 then nullConstant else loadFrame level) 0 1 := by
    split <;> infer_instance
  have : d.Made (do
      let f ← inOrder [if level < 0 then nullConstant else loadFrame level, storeFrameVariable]
      setFrame level
      return f) 0 0 := inferInstance
  unfold adjustFrame
  infer_instance

instance (node : Nat) (place : Position) : d.Made (enterScope node place) 0 0 :=
  made_passive fun scope => by cases scope <;> infer_instance

instance (node : Nat) : d.Made (exitScope node) 0 0 :=
  made_passive fun scope => by cases scope <;> infer_instance

end Levels

end Flowgraph.Lowering
