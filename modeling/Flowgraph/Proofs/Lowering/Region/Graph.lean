import Flowgraph.Proofs.Graph.Reachable
import Flowgraph.Proofs.Lowering.Assembly.Function

/-! # Regions of a graph

The regions of a finished graph: the handlers of the root are those of the try
statements, one for each, and code that may throw is covered by the handler of the
innermost try statement whose body holds its source.
-/

namespace Flowgraph.Lowering

open Assembly (Inv Kept Notes build_assembled)
open Constant (Store)
open Flowgraph.Graph (Code Fragment Instruction Op)

variable {o : Bool} {s : State} {γ : Notes} {P : Kept} {L : List Fragment}

/-- The handlers that the root of a graph names. -/
def rootHandlers (g : Graph) : List Nat :=
  match g.code.op g.root with
  | .entry { kind := .graph _ handlers _, .. } => handlers
  | _ => []

section Graph

variable {id : Nat} {defaults : List Constant.Value}

theorem graph_cases (id : Nat) (defaults : List Constant.Value) (h : Inv o s γ P L) (i : Nat) :
    (s.graph id defaults).code.get i = s.code.get i ∨ ∃ b,
      s.code.op i = .entry { kind := .graph (some 1) [] [], block := b } ∧
      (s.graph id defaults).code.get i = { s.code.get i with
        op := .entry { kind := .graph (some 1) s.handlers defaults, block := b } } := by
  by_cases hi : i = 0
  · obtain ⟨b, hb⟩ := h.sound.root
    exact .inr ⟨b, hi ▸ hb, hi ▸ op_graph_root (Nat.zero_lt_of_lt h.sound.size) hb⟩
  · exact .inl (get_graph hi)

/-- The regions of the code of a graph. -/
structure Regioned (g : Graph) (γ : Nat → Int) : Prop where
  links : ∀ i j, (g.code.get i).next = some j → γ j = γ i
  blocks : ∀ i e, i < g.code.size → g.code.op i = .entry e →
    e.tryIndex = γ i ∧ IsRegion g.tryCount e.tryIndex
  throws : ∀ i, (g.code.op i).mayThrow = true → γ i = coverOf (g.code.get i).within
  rethrows : ∀ i a b t, g.code.op i = .rethrow a b t → IsTry g.tryCount t
  founded : ∀ i e t, g.code.op i = .entry e → handled g.code i = some t → e.tryIndex < t
  table : ((rootHandlers g).map (handled g.code)).Perm (asHandled (List.range g.tryCount))
  reached : ∀ b ∈ g.blocks, IsBlock g.code b

theorem handled_graph (id : Nat) (defaults : List Constant.Value) (h : Inv o s γ P L) (i : Nat) :
    handled (s.graph id defaults).code i = handled s.code i := by
  unfold handled Code.op
  rcases graph_cases id defaults h i with hg | ⟨b, hb, hg⟩
  · rw [hg]
  · rw [Code.op] at hb
    rw [hg, hb]

theorem rootHandlers_graph (id : Nat) (defaults : List Constant.Value) (h : Inv o s γ P L) :
    rootHandlers (s.graph id defaults) = s.handlers := by
  obtain ⟨b, hb⟩ := h.sound.root
  have hop : (s.graph id defaults).code.op 0 =
      .entry { kind := .graph (some 1) s.handlers defaults, block := b } := by
    rw [Code.op, op_graph_root (Nat.zero_lt_of_lt h.sound.size) hb]
  unfold rootHandlers
  change (match (s.graph id defaults).code.op 0 with
    | .entry { kind := .graph _ handlers _, .. } => handlers
    | _ => []) = _
  rw [hop]

theorem isBlock_graph (id : Nat) (defaults : List Constant.Value) (h : Inv o s γ P L) {i : Nat}
    (hi : IsBlock s.code i) :
    IsBlock (s.graph id defaults).code i := by
  refine ⟨hi.1.trans_eq (size_graph s id defaults).symm, ?_⟩
  rcases graph_cases id defaults h i with hg | ⟨b, -, hg⟩
  · exact hi.2.imp fun e he => by rw [Code.op, hg]; exact he
  · exact ⟨_, by rw [Code.op, hg]⟩

theorem isBlock_handler (h : Inv o s γ {} L) {i : Nat} (hi : i ∈ s.handlers) : IsBlock s.code i := by
  refine ⟨(h.handlers i hi).2.1, ?_⟩
  have hmem : handled s.code i ∈ asHandled (List.range s.nextTry) :=
    h.regions.table.subset (List.mem_append_left _ (List.mem_map_of_mem hi))
  obtain ⟨t, -, ht⟩ := List.mem_map.mp hmem
  unfold handled at ht
  split at ht
  · exact ⟨_, ‹_›⟩
  · cases ht

theorem isBlock_targets (id : Nat) (defaults : List Constant.Value) (h : Inv o s γ {} L) (i : Nat) :
    ∀ j ∈ ((s.graph id defaults).code.op i).targets, IsBlock s.code j := by
  intro j hj
  rcases Nat.eq_zero_or_pos i with rfl | hi
  · obtain ⟨b, hb⟩ := h.sound.root
    rw [Code.op, op_graph_root (Nat.zero_lt_of_lt h.sound.size) hb] at hj
    rcases List.mem_append.mp hj with hj | hj
    · exact List.mem_singleton.mp hj ▸ ⟨h.sound.size, h.sound.start.imp' _ fun _ hb => hb⟩
    · exact isBlock_handler h hj
  · rw [Code.op, get_graph hi.ne'] at hj
    exact (h.sound.ahead hi hj).1

theorem successors_subset (c : Code) (b : Nat) :
    ∀ j ∈ c.successors b, ∃ i, j ∈ (c.op i).targets := by
  intro j hj
  unfold Code.successors at hj
  split at hj
  · rename_i ho
    exact ⟨b, by rw [ho]; exact hj⟩
  · refine ⟨c.lastOf b, ?_⟩
    split at hj
    · rename_i ho
      rwa [ho]
    · rename_i ho
      rwa [ho]
    · cases hj

theorem regioned_graph (h : Inv o s γ {} L) :
    Regioned (s.graph id defaults).discover.1 fun i => (γ i).mark.region := by
  -- Away from the root nothing changes, and the root only gets its handlers.
  have hget := graph_cases id defaults h
  have hop : ∀ i, (s.graph id defaults).code.op i = s.code.op i ∨ ∃ b,
      s.code.op i = .entry { kind := .graph (some 1) [] [], block := b } ∧
      (s.graph id defaults).code.op i =
        .entry { kind := .graph (some 1) s.handlers defaults, block := b } := fun i =>
    (hget i).imp (congrArg Instruction.op) fun ⟨b, hb, hg⟩ => ⟨b, hb, congrArg Instruction.op hg⟩
  constructor
  · intro i j hij
    refine (h.sound.links i j ?_).2.region.symm
    rcases hget i with hg | ⟨b, -, hg⟩ <;> rw [← hij] <;> exact (congrArg (·.next) hg).symm
  · intro i e hi he
    have hlt : i < s.code.size := hi.trans_eq (size_graph s id defaults)
    rcases hop i with ho | ⟨b, hb, ho⟩
    · exact h.regions.blocks i e hlt (ho.symm.trans he)
    · have hblock := h.regions.blocks i _ hlt hb
      obtain rfl := Op.entry.inj (ho.symm.trans he)
      exact hblock
  · intro i ht
    have hwithin : ((s.graph id defaults).code.get i).within = (s.code.get i).within := by
      rcases hget i with hg | ⟨b, -, hg⟩ <;> rw [hg]
    refine (h.sound.throws i ?_).trans (congrArg coverOf hwithin).symm
    rcases hop i with ho | ⟨b, hb, ho⟩
    · exact (congrArg Op.mayThrow ho).symm.trans ht
    · cases (congrArg Op.mayThrow ho).symm.trans ht
  · intro i a b t ht
    rcases hop i with ho | ⟨b, hb, ho⟩
    · exact h.regions.rethrows i a _ t (ho.symm.trans ht)
    · cases ho.symm.trans ht
  · intro i e t he ht
    have ht' : handled s.code i = some t := (handled_graph id defaults h i).symm.trans ht
    rcases hop i with ho | ⟨b, hb, ho⟩
    · by_cases hi : i < s.code.size
      · exact h.regions.founded i e t hi (ho.symm.trans he) ht'
      · simp [handled, Code.op_of_le (Nat.le_of_not_lt hi)] at ht'
    · simp [handled, hb] at ht'
  · have htable := h.regions.table
    rw [show asHandled [] = [] from rfl, List.append_nil,
      ← List.map_congr_left fun i _ => handled_graph id defaults h i] at htable
    exact (rootHandlers_graph id defaults h).symm ▸ htable
  · refine Graph.mem_blocks (fun b _ j hj => ?_) ?_
    · obtain ⟨i, hi⟩ := successors_subset _ b j hj
      exact isBlock_graph id defaults h (isBlock_targets id defaults h i j hi)
    · obtain ⟨b, hb⟩ := h.sound.root
      exact isBlock_graph id defaults h ⟨Nat.zero_lt_of_lt h.sound.size, _, hb⟩

end Graph

theorem build_regioned {settings : Settings} {id : Nat} {store store' : Store} {g : Graph}
    (h : (build settings id).run store = (.ok g, store')) : ∃ γ, Regioned g γ := by
  obtain ⟨_, _, t, defaults, γ, hg, hi, -⟩ := build_assembled h
  have hreg : Regioned (t.graph id defaults).discover.1 fun i => (γ i).mark.region := regioned_graph hi
  rw [hg] at hreg
  exact ⟨_, hreg⟩

/-- A function with one try statement, whose body throws. -/
def guardedBody : Tree.Function where
  id := 0
  place := {}
  body := some (.tryCatch {} (.expr {} (.throw {} (.null {}))) [⟨1, {}, "", none, none, .empty {}⟩])

def guardedStore : Store where
  table :=
    { functions := #[{ name := "f", isStatic := true, body := some guardedBody,
                       member := some (.procedure none ⟨{}, "f", .method, true, false, guardedBody⟩) }] }

theorem build_guarded :
    ∃ g store, (build {} 0).run guardedStore = (.ok g, store) ∧ g.tryCount = 1 := by
  have hrun : ((build {} 0).run guardedStore).1.toOption.map (·.tryCount) = some 1 := by
    decide +kernel
  rcases h : (build {} 0).run guardedStore with ⟨_ | g, store⟩
  · rw [h] at hrun
    cases hrun
  · rw [h] at hrun
    exact ⟨g, store, rfl, Option.some.inj hrun⟩

/-- The handler table is total and well founded: the root names one handler for each try
statement and no other, handlers stand outside of what they handle, and blocks and rethrows
name only handlers of the graph. -/
theorem build_handlers_total {settings : Settings} {id : Nat} {store store' : Store} {g : Graph}
    (h : (build settings id).run store = (.ok g, store')) :
    ((rootHandlers g).map (handled g.code)).Perm (asHandled (List.range g.tryCount)) ∧
      (∀ i e t, g.code.op i = .entry e → handled g.code i = some t → e.tryIndex < t) ∧
      (∀ b ∈ g.blocks, ∃ e, g.code.op b = .entry e ∧ IsRegion g.tryCount e.tryIndex) ∧
      ∀ i a b t, g.code.op i = .rethrow a b t → IsTry g.tryCount t := by
  obtain ⟨γ, hg⟩ := build_regioned h
  refine ⟨hg.table, hg.founded, fun b hb => ?_, hg.rethrows⟩
  obtain ⟨hlt, e, he⟩ := hg.reached b hb
  exact ⟨e, he, (hg.blocks b e hlt he).2⟩

theorem guarded_handlers_total : ∃ g store, (build {} 0).run guardedStore = (.ok g, store) ∧
    g.tryCount = 1 ∧
    ((rootHandlers g).map (handled g.code)).Perm (asHandled (List.range g.tryCount)) := by
  obtain ⟨g, store, h, hcount⟩ := build_guarded
  exact ⟨g, store, h, hcount, (build_handlers_total h).1⟩

end Flowgraph.Lowering
