import Flowgraph.Proofs.Graph.Walk
import Flowgraph.Proofs.Lowering.Assembly.Function

/-! # Values of a graph

In a finished graph every value is computed before it is used, on whatever way
control gets there, and no value is used twice.
-/

namespace Flowgraph.Lowering.Linear

open Constant (Store)
open Flowgraph.Graph (Code Laid Op edgesFrom searched_discover)
open Assembly (Inv Notes Step build_assembled kinds_exclusive startNotes targets_of_not_root)

/-- What is noted about the values of a graph. -/
structure Noted (g : Graph) (γ : Nat → List Nat) : Prop where
  size : g.root < g.code.size
  start : ∃ normal handlers defaults block,
    g.code.op g.root = .entry { kind := .graph normal handlers defaults, block }
  root : γ g.root = []
  unlinked : (g.code.get g.root).next = none
  links : ∀ i j, g.code.Linked i j → j < g.code.size ∧
    ∀ d ∈ γ j, d ∈ γ i ∨ d = i ∧ (g.code.op i).isDefinition = true
  owned : ∀ i k j, g.code.Linked i j → g.code.Linked k j → i = k
  targets : ∀ i, ∀ j ∈ (g.code.op i).targets, j < g.code.size ∧
    (g.code.op j).asEntry.isSome = true ∧ γ j ⊆ γ i
  joins : ∀ i, ∀ j ∈ (g.code.op i).targets, (g.code.op j).isJoin = true → g.code.op i = .goto j
  sides : ∀ i, ∀ j ∈ (g.code.op i).targets, (g.code.op j).isTarget = true →
    j ∈ (g.code.op i).sides
  graphs : ∀ i e normal handlers defaults, g.code.op i = .entry e →
    e.kind = .graph normal handlers defaults → i = g.root
  inputs : ∀ i, ∀ u ∈ (g.code.op i).inputs, ∃ d ∈ γ i, u = some d
  used : (g.code.collect Op.used).Nodup
  sidesOnce : (g.code.collect Op.sides).Nodup
  blocksOnce : (g.code.collect Op.blockId).Nodup

section Graph

variable {g g' : Graph} {γ : Nat → List Nat}

theorem Noted.discover (h : Noted g γ) : Noted g.discover.1 γ := ⟨h.1, h.2, h.3, h.4, h.5, h.6, h.7,
  h.8, h.9, h.10, h.11, h.12, h.13, h.14⟩

theorem Noted.laid (h : Noted g γ) (hg : g.discover = (g', none)) :
    Laid g' ∧ ∀ b ∈ g'.blocks, ∃ path, g'.code.Walk g'.root path b := by
  let Reached (b : Nat) : Prop := b < g.code.size ∧ (g.code.op b).asEntry.isSome = true ∧
    ∃ path, g.code.Walk g.root path b
  have hsucc : ∀ b, Reached b → ∀ j ∈ g.code.successors b, Reached j := by
    intro b hb j hj
    obtain ⟨i, hi, hj⟩ := Graph.exists_target_of_mem_successors hj
    obtain ⟨path, hw⟩ := Graph.walk_whole hb.2.2 i hi
    have ht := h.targets i j hj
    exact ⟨ht.1, ht.2.1, path ++ [i], hw.step (List.mem_append_right _ hj)⟩
  obtain ⟨rfl, -⟩ := Prod.mk.inj hg
  have hblocks : ∀ b ∈ g.discover.1.blocks, Reached b := Graph.mem_blocks hsucc
    ⟨h.size, by obtain ⟨_, _, _, _, hop⟩ := h.start; rw [hop]; rfl, _, .start⟩
  refine ⟨⟨searched_discover hg, h.owned, fun i j hij => (h.links i j hij).1, fun b hb => ?_, ?_⟩,
    fun b hb => ?_⟩
  · exact ⟨(hblocks b hb).1, (hblocks b hb).2.1⟩
  · intro b _ e normal handlers defaults hop hkind
    obtain rfl := h.graphs b e normal handlers defaults hop hkind
    exact h.unlinked
  · exact (hblocks b hb).2.2

/-- What is noted at an instruction was computed on the way to it. -/
theorem Noted.mem_walk (h : Noted g γ) {path : List Nat} {i : Nat} (hw : g.code.Walk g.root path i) :
    ∀ d ∈ γ i, d ∈ path ∧ (g.code.op d).isDefinition = true := by
  induction hw with
  | start => simp [h.root]
  | @step path i j hw hj ih =>
    intro d hd
    rcases List.mem_append.mp hj with hj | hj
    · rcases (h.links i j (Option.mem_toList.mp hj)).2 d hd with hd | ⟨rfl, hdef⟩
      · exact ⟨List.mem_append_left _ (ih d hd).1, (ih d hd).2⟩
      · exact ⟨List.mem_append_right _ (List.mem_singleton.mpr rfl), hdef⟩
    · have hd := ih d ((h.targets i j hj).2.2 hd)
      exact ⟨List.mem_append_left _ hd.1, hd.2⟩

theorem Noted.nodup_ids (h : Noted g γ) (hl : Laid g) : (g.blocks.map g.code.block).Nodup := by
  refine hl.nodup.map_on fun b hb b' hb' heq => ?_
  have hmem : ∀ b ∈ g.blocks, g.code.block b ∈ (g.code.op b).blockId := by
    intro b hb
    obtain ⟨e, he⟩ := Option.isSome_iff_exists.mp (hl.entries b hb).2
    simp [Code.block, Code.asEntry, Op.blockId, he]
  exact Code.eq_of_mem_collect h.blocksOnce (hl.entries b hb).1 (hl.entries b' hb').1
    (hmem b hb) (heq ▸ hmem b' hb')

theorem mem_used {op : Op} {d : Nat} : d ∈ op.used ↔ some d ∈ op.inputs := List.reduceOption_mem_iff

theorem Noted.inputs_eq (h : Noted g γ) (i : Nat) :
    (g.code.op i).inputs = (g.code.op i).used.map some := by
  have hall : ∀ u ∈ (g.code.op i).inputs, ∃ d, u = some d := fun u hu =>
    (h.inputs i u hu).imp fun _ hd => hd.2
  unfold Op.used
  generalize (g.code.op i).inputs = us at hall
  induction us with
  | nil => rfl
  | cons u us ih =>
    obtain ⟨⟨d, rfl⟩, hus⟩ := List.forall_mem_cons.mp hall
    rw [List.reduceOption_cons_of_some, List.map_cons, ← ih hus]

theorem Noted.nodup_inputs (h : Noted g γ) (hl : Laid g) :
    (g.instructions.flatMap fun x => (g.code.op x.2).inputs).Nodup := by
  have hlt : ∀ x ∈ g.instructions, x.2 < g.code.size := fun x hx =>
    hl.whole_lt (Graph.mem_instructions.mp hx).1 x.2 (Graph.mem_instructions.mp hx).2
  refine List.nodup_flatMap.mpr ⟨fun x hx => ?_, ?_⟩
  · rw [h.inputs_eq x.2]
    exact ((List.nodup_flatMap.mp h.used).1 x.2 (List.mem_range.mpr (hlt x hx))).map
      fun _ _ => Option.some.inj
  · refine (List.pairwise_map.mp hl.nodup_instructions).imp_of_mem fun {x y} hx hy hne u hux huy => ?_
    obtain ⟨d, -, rfl⟩ := h.inputs x.2 u hux
    exact hne (Code.eq_of_mem_collect h.used (hlt x hx) (hlt y hy) (mem_used.mpr hux)
      (mem_used.mpr huy))

/-! ## Edges -/

theorem Noted.goto_join (h : Noted g γ) (hl : Laid g) {b p : Nat} (hj : (g.code.op b).isJoin = true)
    (hp : p ∈ g.predecessors b) : g.code.op (g.code.lastOf p) = .goto b := by
  obtain ⟨hp, hb⟩ := hl.mem_predecessors.mp hp
  obtain ⟨i, hi, hb⟩ := Graph.exists_target_of_mem_successors hb
  have hop := h.joins i b hb hj
  rw [hl.lastOf_eq hp hi (by rw [hop]; rfl), hop]

theorem Noted.sides_of_target (h : Noted g γ) (hl : Laid g) {b p : Nat} (hp : p ∈ g.blocks)
    (hb : b ∈ g.code.successors p) (ht : (g.code.op b).isTarget = true) :
    b ∈ (g.code.op (g.code.lastOf p)).sides ∧
      g.code.successors p = (g.code.op (g.code.lastOf p)).sides := by
  obtain ⟨i, hi, hb⟩ := Graph.exists_target_of_mem_successors hb
  have hside := h.sides i b hb ht
  unfold Op.sides at hside
  split at hside
  · rename_i hop
    have hlast := hl.lastOf_eq hp hi (by rw [hop]; rfl)
    rw [hlast, hop]
    refine ⟨hside, ?_⟩
    unfold Code.successors
    split
    · rename_i hroot
      rw [← hlast, hl.lastOf_root hp hroot, hroot] at hop
      cases hop
    · rw [hlast, hop]
      rfl
  · cases hside

theorem Noted.nodup_edges (h : Noted g γ) (hl : Laid g) {b : Nat}
    (ht : (g.code.op b).isTarget = true) : (g.edges.filter (·.target = b)).Nodup := by
  refine (hl.edges.filter _).nodup_iff.mpr ?_
  rw [List.filter_flatMap]
  refine List.nodup_flatMap.mpr ⟨fun p hp => ?_, ?_⟩
  · by_cases hb : b ∈ g.code.successors p
    · obtain ⟨-, hs⟩ := h.sides_of_target hl hp hb ht
      refine List.Nodup.filter _ ?_
      rw [edgesFrom, hs]
      refine List.Nodup.map (fun _ _ he => by cases he; rfl) ?_
      exact (List.nodup_flatMap.mp h.sidesOnce).1 _ (List.mem_range.mpr
        (hl.whole_lt hp _ (Graph.lastOf_mem_whole _ p)))
    · have hnil : (edgesFrom g.code p).filter (·.target = b) = [] := by
        simp only [List.filter_eq_nil_iff, edgesFrom, List.mem_map, decide_eq_true_eq]
        rintro _ ⟨n, hn, rfl⟩ rfl
        exact hb hn
      rw [hnil]
      exact List.nodup_nil
  · refine hl.nodup.pairwise_of_forall_ne fun p _ p' _ hne e he he' => hne ?_
    obtain ⟨_, -, rfl⟩ := List.mem_map.mp (List.mem_filter.mp he).1
    obtain ⟨_, -, he⟩ := List.mem_map.mp (List.mem_filter.mp he').1
    cases he
    rfl

theorem Noted.one_predecessor (h : Noted g γ) (hl : Laid g) {b : Nat} (hb : b ∈ g.blocks)
    (ht : (g.code.op b).isTarget = true) : (g.predecessors b).length = 1 := by
  obtain ⟨p, hp⟩ : ∃ p, p ∈ g.predecessors b := by
    rcases hl.entered b hb with rfl | ⟨p, hp, hb⟩
    · obtain ⟨_, _, _, _, hop⟩ := h.start
      rw [hop] at ht
      cases ht
    · exact ⟨p, hl.mem_predecessors.mpr ⟨hp, hb⟩⟩
  have hunique : ∀ p' ∈ g.predecessors b, p' = p := by
    intro p' hp'
    obtain ⟨hp, hb⟩ := hl.mem_predecessors.mp hp
    obtain ⟨hp', hb'⟩ := hl.mem_predecessors.mp hp'
    have hlast := Graph.lastOf_mem_whole g.code p
    have hlast' := Graph.lastOf_mem_whole g.code p'
    have heq := Code.eq_of_mem_collect h.sidesOnce (hl.whole_lt hp _ hlast)
      (hl.whole_lt hp' _ hlast') (h.sides_of_target hl hp hb ht).1 (h.sides_of_target hl hp' hb' ht).1
    exact hl.block_unique hp' hp hlast' (heq ▸ hlast)
  have hnodup : (g.predecessors b).Nodup := by
    refine List.Nodup.map_on (fun e he e' he' hs => ?_) (h.nodup_edges hl ht)
    have htarget := (List.mem_filter.mp he).2
    have htarget' := (List.mem_filter.mp he').2
    obtain ⟨source, target⟩ := e
    obtain ⟨source', target'⟩ := e'
    simp_all
  rw [List.eq_replicate_of_mem hunique, List.nodup_replicate] at hnodup
  have := List.length_pos_of_mem hp
  omega

end Graph

/-! ## The graph of a function -/

section Build

variable {o : Bool} {t : State} {γ : Notes} {settings : Settings} {store : Store} {place : Position}

theorem noted_graph (id : Nat) (defaults : List Constant.Value) (h : Inv o t γ {} [.single 0])
    (st : Step (startState settings store place) startNotes t γ) :
    Noted (t.graph id defaults) fun i => (γ i).values := by
  have hold : ∀ i < 2, i < t.code.size ∧ t.code.op i = (startCode settings.firstBlock).op i ∧
      (γ i).values = [] := fun i hi =>
    ⟨hi.trans_le st.size, st.ops i hi, congrArg (·.values) (st.notes i hi)⟩
  obtain ⟨hlt0, hop0, hγ0⟩ := hold 0 (by omega)
  obtain ⟨hlt1, hop1, hγ1⟩ := hold 1 (by omega)
  let g := t.graph id defaults
  have hsize : g.code.size = t.code.size := size_graph t id defaults
  have hget0 : g.code.get 0 = { t.code.get 0 with
      op := .entry { kind := .graph (some 1) t.handlers defaults, block := settings.firstBlock } } :=
    op_graph_root hlt0 hop0
  have hroot : g.code.op 0 = .entry
      { kind := .graph (some 1) t.handlers defaults, block := settings.firstBlock } :=
    congrArg (·.op) hget0
  have hop : ∀ i, i ≠ 0 → g.code.op i = t.code.op i := fun i hi => congrArg (·.op) (get_graph hi)
  have hnext : ∀ i, (g.code.get i).next = (t.code.get i).next := fun i => by
    by_cases hi : i = 0
    · rw [hi, hget0]
    · rw [get_graph hi]
  have hkeep : ∀ {α : Type} (f : Op → List α), f (g.code.op 0) = f (t.code.op 0) →
      g.code.collect f = t.code.collect f := by
    intro α f hf
    unfold Code.collect
    rw [hsize]
    refine List.flatMap_congr fun i _ => ?_
    by_cases hi : i = 0
    · rw [hi, hf]
    · rw [hop i hi]
  have hsame : ∀ j, (t.code.op j).isRoot = false → g.code.op j = t.code.op j := fun j hj =>
    hop j fun h0 => by rw [h0, hop0] at hj; cases hj
  -- The root leads to the entry of the function and to the handlers.
  have htargets : ∀ i, ∀ j ∈ (g.code.op i).targets, j < g.code.size ∧
      (γ j).values ⊆ (γ i).values ∧ ((g.code.op j).isHandler = true ∨ g.code.op j = t.code.op 1 ∨
        g.code.op i = .goto j ∧ (g.code.op j).isJoin = true ∨
        j ∈ (g.code.op i).sides ∧ (g.code.op j).isTarget = true) := by
    intro i j hj
    rw [hsize]
    by_cases hi : i = 0
    · rw [hi, hroot] at hj
      rcases List.mem_append.mp hj with hj | hj
      · obtain rfl := List.mem_singleton.mp hj
        exact ⟨hlt1, hγ1 ▸ List.nil_subset _, .inr (.inl (hop 1 (by omega)))⟩
      · obtain ⟨-, hlt, hhandler, hγ⟩ := h.handlers j hj
        rw [hsame j ((kinds_exclusive _).2.2 hhandler).2]
        exact ⟨hlt, hγ ▸ List.nil_subset _, .inl hhandler⟩
    · rw [hop i hi] at hj ⊢
      rcases targets_of_not_root (h.sound.roots i (Nat.pos_of_ne_zero hi)) hj with hgoto | hside
      · obtain ⟨-, hlt, hjoin, hγ, -⟩ := h.sound.jumps i j hgoto
        rw [hsame j ((kinds_exclusive _).1 hjoin).2.2.2]
        exact ⟨hlt, hγ, .inr (.inr (.inl ⟨hgoto, hjoin⟩))⟩
      · obtain ⟨-, hlt, htarget, hγ, -⟩ := h.sound.sides i j hside
        rw [hsame j ((kinds_exclusive _).2.1 htarget).2.2]
        exact ⟨hlt, hγ, .inr (.inr (.inr ⟨hside, htarget⟩))⟩
  constructor
  · exact hlt0.trans_eq hsize.symm
  · exact ⟨_, _, _, _, hroot⟩
  · exact hγ0
  · exact (hnext 0).trans (h.hands.exit (.single 0) List.mem_cons_self 0 rfl).2
  · intro i j hij
    obtain ⟨hj, hd⟩ := h.sound.links i j ((hnext i).symm.trans hij)
    refine ⟨hj.trans_eq hsize.symm, fun d hmem => (hd.values d hmem).imp_right ?_⟩
    rintro ⟨rfl, hdef⟩
    refine ⟨rfl, ?_⟩
    rw [hop d fun h0 => by rw [h0, hop0] at hdef; cases hdef]
    exact hdef
  · intro i k j hij hkj
    exact h.sound.owned i k j ((hnext i).symm.trans hij) ((hnext k).symm.trans hkj)
  · intro i j hj
    obtain ⟨hlt, hγ, hk⟩ := htargets i j hj
    refine ⟨hlt, ?_, hγ⟩
    rcases hk with hk | hk | ⟨-, hk⟩ | ⟨-, hk⟩
    · exact ((kinds_exclusive _).2.2 hk).1
    · rw [hk, hop1]
      rfl
    · exact ((kinds_exclusive _).1 hk).1
    · exact ((kinds_exclusive _).2.1 hk).1
  · intro i j hj hjoin
    obtain ⟨-, htarget, hhandler, -⟩ := (kinds_exclusive _).1 hjoin
    rcases (htargets i j hj).2.2 with hk | hk | ⟨hk, -⟩ | ⟨-, hk⟩
    · rw [hhandler] at hk
      cases hk
    · rw [hk, hop1] at hjoin
      cases hjoin
    · exact hk
    · rw [htarget] at hk
      cases hk
  · intro i j hj htarget
    rcases (htargets i j hj).2.2 with hk | hk | ⟨-, hk⟩ | ⟨hk, -⟩
    · rw [((kinds_exclusive _).2.1 htarget).2.1] at hk
      cases hk
    · rw [hk, hop1] at htarget
      cases htarget
    · rw [((kinds_exclusive _).1 hk).2.1] at htarget
      cases htarget
    · exact hk
  · intro i e normal handlers defaults hi hkind
    by_contra h0
    have := h.sound.roots i (Nat.pos_of_ne_zero h0)
    rw [← hop i h0, hi] at this
    obtain ⟨kind, block, tryIndex⟩ := e
    obtain rfl : kind = _ := hkind
    cases this
  · intro i u hu
    by_cases hi : i = 0
    · rw [hi, hroot] at hu
      cases hu
    · rw [hop i hi] at hu
      exact h.sound.inputs i u hu
  · rw [hkeep _ (by rw [hroot, hop0]; rfl)]
    exact (List.nodup_append.mp h.unused.nodup).2.1
  · rw [hkeep _ (by rw [hroot, hop0]; rfl)]
    exact h.sides
  · rw [hkeep _ (by rw [hroot, hop0]; rfl)]
    exact h.blocks.nodup

theorem build_noted {id : Nat} {store' : Store} {g : Graph}
    (h : (build settings id).run store = (.ok g, store')) :
    ∃ γ, Noted g γ ∧ Laid g ∧ ∀ b ∈ g.blocks, ∃ path, g.code.Walk g.root path b := by
  obtain ⟨_, _, t, defaults, γ, hg, hi, hpass⟩ := build_assembled h
  have hnoted := noted_graph id defaults hi hpass.step
  have hd := hnoted.discover
  rw [hg] at hd
  exact ⟨_, hd, hnoted.laid hg⟩

/-- Graphs are in static single assignment form, and each value is used once. Every input of an
instruction is the value of a definition of the graph that control has passed whenever it
arrives. -/
theorem build_single_use {id : Nat} {store' : Store} {g : Graph}
    (h : (build settings id).run store = (.ok g, store')) :
    (g.blocks.map g.code.block).Nodup ∧ (g.instructions.map (·.2)).Nodup ∧
    (∀ x ∈ g.instructions, (∃ path, g.code.Walk g.root path x.2) ∧
      ∀ u ∈ (g.code.op x.2).inputs, ∃ d, u = some d ∧ (g.code.op d).isDefinition = true ∧
        d ∈ g.instructions.map (·.2) ∧ ∀ path, g.code.Walk g.root path x.2 → d ∈ path) ∧
    (g.instructions.flatMap fun x => (g.code.op x.2).inputs).Nodup ∧
    (∀ b ∈ g.blocks, (g.code.op b).isTarget = true → (g.predecessors b).length = 1) ∧
    ∀ b ∈ g.blocks, (g.code.op b).isJoin = true →
      ∀ p ∈ g.predecessors b, g.code.op (g.code.lastOf p) = .goto b := by
  obtain ⟨γ, hn, hl, hwalks⟩ := build_noted h
  refine ⟨hn.nodup_ids hl, hl.nodup_instructions, fun x hx => ?_, hn.nodup_inputs hl,
    fun b hb ht => hn.one_predecessor hl hb ht, fun b _ hj p hp => hn.goto_join hl hj hp⟩
  obtain ⟨hb, hi⟩ := Graph.mem_instructions.mp hx
  obtain ⟨path, hw⟩ := Graph.walk_whole (hwalks x.1 hb) x.2 hi
  refine ⟨⟨path, hw⟩, fun u hu => ?_⟩
  obtain ⟨d, hd, rfl⟩ := hn.inputs x.2 u hu
  obtain ⟨hpath, hdef⟩ := hn.mem_walk hw d hd
  exact ⟨d, rfl, hdef, (hl.walk_mem hw).2 d hpath, fun path' hw' => (hn.mem_walk hw' d hd).1⟩

/-- A function that returns one of two values. -/
def choosingBody : Tree.Function where
  id := 0
  place := {}
  body := some (.giveBack {} (some (.conditional {} (.bool {} true) (.null {}) (.bool {} false))))

def choosingStore : Store where
  table :=
    { functions := #[{ name := "f", isStatic := true, body := some choosingBody,
                       member := some (.procedure none ⟨{}, "f", .method, true, false, choosingBody⟩) }] }

theorem choosing_single_use : ∃ g store, (build {} 0).run choosingStore = (.ok g, store) ∧
    g.blocks.length = 5 ∧ (g.instructions.map (·.2)).Nodup ∧
    (g.instructions.flatMap fun x => (g.code.op x.2).inputs).Nodup := by
  have hrun : ((build {} 0).run choosingStore).1.toOption.map (·.blocks.length) = some 5 := by
    decide +kernel
  rcases h : (build {} 0).run choosingStore with ⟨_ | g, store⟩
  · rw [h] at hrun
    cases hrun
  · rw [h] at hrun
    have hg := build_single_use h
    exact ⟨g, store, rfl, Option.some.inj hrun, hg.2.1, hg.2.2.2.1⟩

end Build

end Flowgraph.Lowering.Linear
