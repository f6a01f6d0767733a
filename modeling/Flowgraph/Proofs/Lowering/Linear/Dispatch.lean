import Flowgraph.Proofs.Lowering.Linear.Graph

/-! # Switches of a graph

In a finished graph control gets from the subject of a switch to the right case, from
the end of a body to the next one, and from a continue to its case. Every switch and
every continue that is lowered is noted, so this is said about all of them.
-/

namespace Flowgraph.Lowering.Linear

open Assembly (Notes Step build_assembled source_caseLayouts startNotes)
open Constant (Store)
open Flowgraph.Graph (Code ContinuesTo Dispatches Fragment Op)
open Flowgraph.Tree (SwitchCase)

/-! ## What is noted -/

section Notes

variable {env : Env} {s : State} {place : Position}

theorem ends_balanced {kind : String} {m : LowerM Fragment}
    {Q : Fragment → Graph.Sources → Prop} (h : ∀ s, Ends env m s fun f t => Q f t.sources) :
    Ends env (balanced place kind m) s fun f t => Q f t.sources := by
  unfold balanced at_
  rw [ends_bind, ends_get, ends_bind, ends_modify, ends_bind, ends_bind, ends_get]
  refine (h _).bind fun f s1 hf => ?_
  rw [ends_bind, ends_get]
  dsimp only
  split
  · exact ends_bind.mpr ends_malformed
  · split
    · exact ends_bind.mpr ends_malformed
    · rw [ends_pure, ends_bind, ends_modify, ends_pure]
      exact hf

theorem length_caseBodies {index : Nat} {cases : List (SwitchCase × LowerM Fragment)} :
    Ends env (caseBodies index cases) s fun bodies _ => bodies.length = cases.length := by
  induction cases generalizing index s with
  | nil => exact ends_pure.mpr rfl
  | cons c rest ih =>
    obtain ⟨c, code⟩ := c
    have hrest : ∀ (b : Fragment × Fragment) t,
        Ends env (do return b :: (← caseBodies (index + 1) rest)) t fun bodies _ =>
          bodies.length = rest.length + 1 := fun b t =>
      ih.bind fun bodies _ hlen => ends_pure.mpr (congrArg (· + 1) hlen)
    have hany : ∀ (m : LowerM Fragment) t, Ends env m t fun _ _ => True := fun _ _ =>
      ends_of_forall fun _ _ => trivial
    unfold caseBodies
    refine (hany code s).bind fun body s1 _ => ?_
    refine Ends.join (fun _ => hany _ _) (fun _ => hany _ _) fun raw s2 _ => ?_
    refine Ends.join (fun _ => hany _ _) (fun _ => hany _ _) fun whole s3 _ => ?_
    dsimp only
    split
    · exact ends_bind.mpr (ends_of_forall fun _ s4 => hrest _ s4)
    · exact hrest _ s3

theorem noted_switchOn {subject : Tree.Expr} {cases : List (SwitchCase × LowerM Fragment)}
    {fs : Finalizers} : Ends env (switchOn subject cases fs) s fun f t =>
      ∃ n ∈ t.sources.switches, n.subject = subject ∧ n.sources = cases.map (·.1) ∧ n.whole = f := by
  unfold switchOn
  rw [ends_bind, ends_get]
  refine ends_bind.mpr (ends_of_forall fun v s1 => ?_)
  refine ends_bind.mpr (ends_of_forall fun code s2 => ?_)
  rw [ends_bind, ends_get]
  refine ends_bind.mpr (ends_of_forall fun head s3 => ?_)
  dsimp only
  split
  · exact ends_malformed
  refine ends_bind.mpr (ends_of_forall fun l s4 => ?_)
  rw [ends_bind, ends_modify, changeDepths, ends_bind, ends_modify]
  refine length_caseBodies.bind fun bodies s5 hlen => ?_
  refine ends_bind.mpr (ends_of_forall fun f s6 => ?_)
  rw [ends_bind, ends_get]
  refine ends_bind.mpr (ends_of_forall fun t s7 => ?_)
  rw [ends_bind, note, ends_modify, changeDepths, ends_bind, ends_modify, ends_bind, ends_modify,
    ends_pure]
  exact ⟨_, List.mem_cons_self, rfl, source_caseLayouts (by simp [hlen]), rfl⟩

theorem length_lowerCases (fs : Finalizers) :
    ∀ cases : List SwitchCase, (lowerCases fs cases).length = cases.length
  | [] => rfl
  | ⟨_, _, _, _, _, _⟩ :: cases => congrArg (· + 1) (length_lowerCases fs cases)

theorem noted_switch {fs : Finalizers} {subject : Tree.Expr} {cases : List SwitchCase} :
    Ends env (lowerStmt fs (.switch place subject cases)) s fun f t =>
      ∃ n ∈ t.sources.switches, n.subject = subject ∧ n.sources = cases ∧ n.whole = f := by
  unfold lowerStmt statement
  refine ends_balanced (Q := fun f sources => ∃ n ∈ sources.switches, n.subject = subject ∧
    n.sources = cases ∧ n.whole = f) fun s => ?_
  have hnoted : Ends env (switchOn subject (cases.zip (lowerCases fs cases)) fs) s _ := noted_switchOn
  rwa [List.map_fst_zip (length_lowerCases fs cases).ge] at hnoted

theorem noted_continueCase {fs : Finalizers} {target : Tree.Ref} :
    Ends env (lowerStmt fs (.continueCase place target)) s fun _ t =>
      ∃ k ∈ t.sources.continues, k.2 = target.id := by
  unfold lowerStmt statement continueTo
  refine ends_balanced (Q := fun _ sources => ∃ k ∈ sources.continues, k.2 = target.id) fun s => ?_
  rw [ends_bind, ends_get]
  dsimp only
  split
  · exact ends_malformed
  · refine ends_bind.mpr (ends_of_forall fun join s1 => ?_)
    unfold jumpTo inOrder chain
    refine ends_bind.mpr (ends_of_forall fun f s2 => ?_)
    rw [ends_bind, ends_append]
    unfold chain
    rw [ends_bind, ends_bind]
    refine ends_of_forall fun jump s3 => ?_
    rw [ends_bind, note, ends_modify, ends_pure, ends_bind, ends_append]
    exact ends_pure.mpr ⟨_, List.mem_cons_self, rfl⟩

end Notes

/-! ## The graph of a function -/

section Build

variable {settings : Settings} {store : Store}

/-- The root of a graph leads to the handlers too. The rest of its code is what was emitted. -/
theorem extends_graph_of_root {t : State} {b : Int} (id : Nat) (defaults : List Constant.Value)
    (hlt : 0 < t.code.size) (hop : t.code.op 0 = .entry { kind := .graph (some 1) [] [], block := b }) :
    t.code.Extends (t.graph id defaults).code := by
  have hroot : (t.graph id defaults).code.get 0 = _ := op_graph_root hlt hop
  have hget : ∀ i, i ≠ 0 → (t.graph id defaults).code.get i = t.code.get i := fun i => get_graph
  refine ⟨(size_graph t id defaults).ge, fun i _ hr => ?_, fun i hr => ?_, fun i j hij => ?_⟩
  · refine congrArg (·.op) (hget i ?_)
    rintro rfl
    rw [hop] at hr
    cases hr
  · by_cases hi : i = 0
    · rw [hi, Code.op, hroot]
      rfl
    · rwa [Code.op, hget i hi]
  · by_cases hi : i = 0
    · subst hi
      rwa [Code.Linked, hroot]
    · rwa [Code.Linked, hget i hi]

theorem extends_graph {t : State} {place : Position} {γ : Notes} (id : Nat)
    (defaults : List Constant.Value)
    (st : Step (startState settings store place) startNotes t γ) :
    t.code.Extends (t.graph id defaults).code :=
  extends_graph_of_root id defaults (Nat.lt_of_lt_of_le (by simp [startState, startCode]) st.size)
    (st.ops 0 (by simp [startState, startCode]))

/-- A function with a switch. Its first case has two tests and runs into the second, which
continues to the first. -/
def sortingBody : Tree.Function where
  id := 0
  place := {}
  body := some (.block 1 {} [.switch {} (.null {}) [
    ⟨2, {}, "", [.bool {} true, .bool {} false], false, .empty {}⟩,
    ⟨3, {}, "", [.null {}], false, .continueCase {} ⟨2, ""⟩⟩,
    ⟨4, {}, "", [], true, .expr {} (.null {})⟩]])

def sortingStore : Store where
  table :=
    { functions := #[{ name := "f", isStatic := true, body := some sortingBody,
                       member := some (.procedure none ⟨{}, "f", .method, true, false, sortingBody⟩) }] }

end Build

end Flowgraph.Lowering.Linear
