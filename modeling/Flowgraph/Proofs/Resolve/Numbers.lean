import Flowgraph.Resolve.Library
import Flowgraph.Proofs.Scoping.Moves
import Mathlib.Tactic.Simps.Basic

/-! # Numbers of declarations

The numbers of the variables that are declared in what resolution makes, in the order in which the
analysis meets them.
-/

namespace Flowgraph.Scoping

/-- The number of the variable that is declared. -/
@[simp] def Move.number? : Move → Option Nat
  | declare d | parameter d => some d.id
  | _ => none

@[simp] theorem number?_deeper : deeper.number? = none := rfl

@[simp] theorem number?_shallower : shallower.number? = none := rfl

/-- The numbers of the variables that a word declares. -/
def numbers (w : List Move) : List Nat := w.filterMap Move.number?

@[simp] theorem numbers_nil : numbers [] = [] := rfl

@[simp] theorem numbers_append (v w : List Move) : numbers (v ++ w) = numbers v ++ numbers w :=
  List.filterMap_append

@[simp] theorem numbers_cons (mv : Move) (w : List Move) :
    numbers (mv :: w) = mv.number?.toList ++ numbers w := by
  rw [numbers, List.filterMap_cons]
  cases mv.number? <;> rfl

end Flowgraph.Scoping

namespace Flowgraph.Resolve

open Flowgraph.Scoping

variable {α β : Type}

/-- What resolution makes, with the numbers of the variables that are declared in it. -/
class Numbered (α : Type) where
  ids : α → List Nat

export Numbered (ids)

instance (priority := low) Numbered.unnumbered : Numbered α := ⟨fun _ => []⟩

instance [Numbered α] : Numbered (List α) := ⟨List.flatMap ids⟩

instance Numbered.option [Numbered α] : Numbered (Option α) := ⟨fun x => ids x.toList⟩

instance [Numbered α] : Numbered (α × β) := ⟨fun x => ids x.1⟩

@[simps] instance Numbered.expr : Numbered Tree.Expr := ⟨fun e => numbers (exprMoves e)⟩

@[simps] instance Numbered.entry : Numbered Tree.MapEntry := ⟨fun e => ids e.key ++ ids e.value⟩

@[simps] instance Numbered.named : Numbered Tree.NamedArgument := ⟨fun a => ids a.value⟩

@[simps] instance Numbered.arguments : Numbered Tree.Arguments :=
  ⟨fun a => ids a.positional ++ ids a.named⟩

@[simps] instance Numbered.declaration : Numbered Tree.Declaration :=
  ⟨fun d => ids d.initializer ++ [d.id]⟩

@[simps] instance Numbered.stmt : Numbered Tree.Stmt := ⟨fun s => numbers (stmtMoves s)⟩

@[simps] instance Numbered.switchCase : Numbered Tree.SwitchCase :=
  ⟨fun c => ids c.tests ++ ids c.body⟩

instance : Numbered Tree.CatchClause := ⟨fun c => numbers (catchMoves [c])⟩

@[simps] instance Numbered.function : Numbered Tree.Function :=
  ⟨fun f => ids f.positional ++ ids f.named ++ ids f.body⟩

instance : Numbered Head where
  ids
    | .value e => ids e
    | .static .. => []

@[simps] instance Numbered.pieces : Numbered Pieces := ⟨fun p => ids p.done⟩

@[simps] instance Numbered.head : Numbered CaseHead := ⟨fun h => ids h.tests⟩

@[simps] instance Numbered.lists : Numbered ParameterLists :=
  ⟨fun l => ids l.positional ++ ids l.named⟩

@[simps] instance Numbered.field : Numbered Tree.Field := ⟨fun f => ids f.initializer⟩

@[simps] instance Numbered.procedure : Numbered Tree.Procedure := ⟨fun p => ids p.function⟩

@[simps] instance Numbered.initializer : Numbered Tree.Initializer :=
  ⟨fun i => numbers (initializerMoves i)⟩

@[simps] instance Numbered.constructor : Numbered Tree.Constructor :=
  ⟨fun c => ids c.function ++ ids c.initializers⟩

@[simps] instance Numbered.members : Numbered Members :=
  ⟨fun ms => ids ms.fields ++ ids ms.constructors ++ ids ms.procedures⟩

@[simps] instance Numbered.classDecl : Numbered Tree.ClassDecl :=
  ⟨fun c => ids (⟨c.fields, c.constructors, c.procedures⟩ : Members)⟩

@[simps] instance Numbered.contents : Numbered Contents :=
  ⟨fun done => ids done.members ++ ids done.classes⟩

@[simps] instance Numbered.library : Numbered Tree.Library :=
  ⟨fun l => ids (⟨l.fields, [], l.procedures⟩ : Members) ++ ids l.classes⟩

/-! ## Words of parts -/

@[simp] theorem ids_unnumbered : @ids α .unnumbered = fun _ => [] := rfl

@[simp] theorem ids_unnumbered? (a : Option α) : @ids (Option α) (@Numbered.option α .unnumbered) a = [] := by
  cases a <;> rfl

section Lists

variable [Numbered α]

@[simp] theorem ids_nil : ids ([] : List α) = [] := rfl

@[simp] theorem ids_cons (a : α) (l : List α) : ids (a :: l) = ids a ++ ids l := List.flatMap_cons

@[simp] theorem ids_append (l k : List α) : ids (l ++ k) = ids l ++ ids k := List.flatMap_append

@[simp] theorem ids_none : ids (none : Option α) = [] := rfl

@[simp] theorem ids_some (a : α) : ids (some a) = ids a := List.append_nil _

@[simp] theorem ids_pair (x : α × β) : ids x = ids x.1 := rfl

end Lists

theorem ids_clause (c : Tree.CatchClause) : ids c = numbers (catchMoves [c]) := rfl

@[simp] theorem ids_value (e : Tree.Expr) : ids (Head.value e) = numbers (exprMoves e) := rfl

@[simp] theorem ids_static (place : Position) (name : String) : ids (Head.static place name) = [] := rfl

@[simp] theorem numbers_exprsMoves (l : List Tree.Expr) : numbers (exprsMoves l) = ids l := by
  induction l with
  | nil => rfl
  | cons e l ih => simp [exprsMoves, ih]

@[simp] theorem numbers_optionMoves (e : Option Tree.Expr) : numbers (optionMoves e) = ids e := by
  cases e <;> simp [optionMoves]

@[simp] theorem numbers_entryMoves (l : List Tree.MapEntry) : numbers (entryMoves l) = ids l := by
  induction l with
  | nil => rfl
  | cons e l ih =>
    cases e
    simp [entryMoves, ih]

@[simp] theorem numbers_namedMoves (l : List Tree.NamedArgument) : numbers (namedMoves l) = ids l := by
  induction l with
  | nil => rfl
  | cons a l ih =>
    cases a
    simp [namedMoves, ih]

@[simp] theorem numbers_argumentMoves (a : Tree.Arguments) : numbers (argumentMoves a) = ids a := by
  cases a
  simp [argumentMoves]

@[simp] theorem numbers_parameterMoves (l : List Tree.Declaration) :
    numbers (parameterMoves l) = ids l := by
  induction l with
  | nil => rfl
  | cons d l ih =>
    cases d
    simp [parameterMoves, ih]

@[simp] theorem numbers_declarationMoves (l : List Tree.Declaration) :
    numbers (declarationMoves l) = ids l := by
  induction l with
  | nil => rfl
  | cons d l ih =>
    cases d
    simp [declarationMoves, ih]

@[simp] theorem numbers_bodyMoves (s : Option Tree.Stmt) : numbers (bodyMoves s) = ids s := by
  cases s <;> simp [bodyMoves]

@[simp] theorem numbers_stmtsMoves (l : List Tree.Stmt) : numbers (stmtsMoves l) = ids l := by
  induction l with
  | nil => rfl
  | cons s l ih => simp [stmtsMoves, ih]

@[simp] theorem numbers_caseMoves (l : List Tree.SwitchCase) : numbers (caseMoves l) = ids l := by
  induction l with
  | nil => rfl
  | cons c l ih =>
    cases c
    simp [caseMoves, ih]

@[simp] theorem numbers_catchMoves (l : List Tree.CatchClause) : numbers (catchMoves l) = ids l := by
  induction l with
  | nil => rfl
  | cons c l ih =>
    cases c
    simp [catchMoves, ih, ids_clause]

@[simp] theorem numbers_functionMoves (name : String) (f : Tree.Function) :
    numbers (functionMoves name f) = ids f := by
  cases f
  simp [functionMoves]

@[simp] theorem stmtMoves_wrapBreak (t : Target) (s : Tree.Stmt) :
    stmtMoves (wrapBreak t s) = stmtMoves s := by
  unfold wrapBreak
  split
  · rw [stmtMoves]
  · rfl

@[simp] theorem stmtMoves_wrapContinue (t : Target) (place : Position) (s : Tree.Stmt) :
    stmtMoves (wrapContinue t place s) = stmtMoves s := by
  unfold wrapContinue
  split
  · rw [stmtMoves]
  · rfl

@[simp] theorem exprMoves_invoke (place : Position) (receiver : Tree.Expr) (name : String)
    (args : List Tree.Expr) :
    exprMoves (invoke place receiver name args) = exprMoves receiver ++ exprsMoves args := by
  simp [invoke, exprMoves, argumentMoves, namedMoves]

@[simp] theorem exprMoves_binary (place : Position) (op : String) (left right : Tree.Expr) :
    exprMoves (binary place op left right) = exprMoves left ++ exprMoves right := by
  rw [binary.eq_def]
  split <;> simp [identical, exprMoves, exprsMoves, argumentMoves, namedMoves]

@[simp] theorem exprMoves_unary (place : Position) (op : String) (operand : Tree.Expr) :
    exprMoves (unary place op operand) = exprMoves operand := by
  rw [unary.eq_def]
  split <;> simp [exprMoves, exprsMoves]

@[simp] theorem ids_flush (p : Pieces) : ids p.flush.done = ids p.done := by
  unfold Pieces.flush
  split
  · rfl
  · simp [exprMoves]

theorem count_expr (p : Pieces) (place : Position) (i : Nat) :
    (numbers (exprMoves (p.expr place))).count i ≤ (ids p.done).count i := by
  rw [← ids_flush, Pieces.expr]
  split
  · simp [exprMoves]
  · cases p.flush.done with
    | nil => simp [exprMoves]
    | cons e es => simp

theorem count_declare (d : Option Tree.Declaration) (i : Nat) :
    (numbers (d.toList.map .declare)).count i ≤ (ids d).count i := by
  cases d <;> simp

/-! ## Members -/

theorem numbers_flatMap {f : α → List Move} (xs : List α) :
    numbers (xs.flatMap f) = xs.flatMap fun x => numbers (f x) := List.filterMap_flatMap ..

theorem count_le_ids [Numbered α] {x : α} {xs : List α} (hx : x ∈ xs) (i : Nat) :
    (ids x).count i ≤ (ids xs).count i :=
  (List.sublist_flatten_of_mem (List.mem_map_of_mem hx)).count_le i

theorem numbers_memberMoves (m : Tree.Member) :
    numbers (memberMoves m) = numbers (insideMoves m) := by
  have hbegin : (beginMove m).number? = none := by
    unfold beginMove
    split
    · split <;> rfl
    · rfl
    · rfl
  have hreceiver : numbers (receiverMoves m) = [] := by
    unfold receiverMoves
    split <;> rfl
  rw [memberMoves, numbers_cons, hbegin]
  simp [hreceiver]

theorem numbers_procedure (owner : Option Tree.ClassDecl) (p : Tree.Procedure) :
    numbers (insideMoves (.procedure owner p)) = ids p := by
  simp only [insideMoves, Numbered.procedure_ids]
  cases p.function <;> simp [signatureMoves]

theorem count_initializersMoves (owner : Tree.ClassDecl) (c : Tree.Constructor) (i : Nat) :
    (numbers (initializersMoves owner c)).count i ≤
      (ids owner.fields).count i + (ids c.initializers).count i := by
  have hfields (fs : List Tree.Field) : (numbers (fs.flatMap fun f =>
      if f.isStatic then [] else optionMoves f.initializer)).count i ≤ (ids fs).count i := by
    induction fs with
    | nil => exact Nat.le_refl _
    | cons f fs ih =>
      simp only [List.flatMap_cons, numbers_append, ids_cons, List.count_append, Numbered.field_ids]
      refine Nat.add_le_add ?_ ih
      split <;> simp
  have hinits : numbers (c.initializers.flatMap initializerMoves) = ids c.initializers :=
    numbers_flatMap _
  rw [initializersMoves, numbers_append, List.count_append, hinits]
  refine Nat.add_le_add_right ?_ _
  split
  · exact hfields _
  · exact Nat.zero_le _

theorem count_insideMoves (owner : Tree.ClassDecl) {m : Tree.Member} (hm : m ∈ owner.members) (i : Nat) :
    (numbers (insideMoves m)).count i ≤ (ids owner).count i := by
  simp only [Tree.ClassDecl.members, List.mem_append, List.mem_map] at hm
  simp only [Numbered.classDecl_ids, Numbered.members_ids, List.count_append]
  rcases hm with (⟨f, hf, rfl⟩ | ⟨c, hc, rfl⟩) | ⟨p, hp, rfl⟩
  · have := count_le_ids hf i
    simp only [insideMoves, numbers_optionMoves]
    simp only [Numbered.field_ids] at this
    omega
  · have hc := count_le_ids hc i
    have hinits := count_initializersMoves owner c i
    simp only [Numbered.constructor_ids, Numbered.function_ids, List.count_append] at hc
    simp only [insideMoves, signatureMoves, numbers_append, numbers_parameterMoves, numbers_bodyMoves,
      numbers_cons, numbers_nil, Move.number?, Option.toList_none, List.append_nil, List.count_append]
    omega
  · rw [numbers_procedure]
    have hp := count_le_ids hp i
    omega

/-- No two variables of a member have the same number, also with the initializers of the fields that
a constructor sets. -/
theorem nodup_memberMoves {l : Tree.Library} (hl : (ids l).Nodup) {m : Tree.Member}
    (hm : m ∈ l.members) : (numbers (memberMoves m)).Nodup := by
  rw [numbers_memberMoves]
  refine List.nodup_iff_count.mpr fun i => Nat.le_trans ?_ (List.nodup_iff_count.mp hl i)
  simp only [Numbered.library_ids, Numbered.members_ids, List.count_append]
  simp only [Tree.Library.members, List.mem_append, List.mem_map, List.mem_flatMap] at hm
  rcases hm with (⟨f, hf, rfl⟩ | ⟨p, hp, rfl⟩) | ⟨c, hc, hm⟩
  · have := count_le_ids hf i
    simp only [insideMoves, numbers_optionMoves]
    simp only [Numbered.field_ids] at this
    omega
  · rw [numbers_procedure]
    have hp := count_le_ids hp i
    omega
  · have hclass := count_le_ids hc i
    have hinside := count_insideMoves c hm i
    omega

end Flowgraph.Resolve
