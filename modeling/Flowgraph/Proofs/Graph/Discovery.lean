import Flowgraph.Proofs.Graph.Walk

/-! # Discovery is right

The blocks of a discovered graph stand in an order in which every edge but the back edges goes
forward, and discovery refuses exactly the graphs that are not made of whole blocks.
-/

namespace Flowgraph.Graph

open scoped List

/-! ## Order -/

/-- One edge goes from each block to each place it leads to, and only the back edges do not go
forward. -/
structure Ordered (g : Graph) : Prop where
  reachable : ∀ b, b ∈ g.blocks ↔ g.code.Reaches g.root b
  nodup : g.blocks.Nodup
  first : g.blocks.head? = some g.root
  forward : ∀ b ∈ g.blocks, ∀ n ∈ g.code.successors b, ⟨b, n⟩ ∉ g.backEdges →
    g.blocks.idxOf b < g.blocks.idxOf n
  back : ∀ e ∈ g.backEdges, e.source ∈ g.blocks ∧ e.target ∈ g.code.successors e.source ∧
    g.blocks.idxOf e.target ≤ g.blocks.idxOf e.source
  acyclic : ∀ b, ¬Relation.TransGen (fun b n => b ∈ g.blocks ∧ n ∈ g.code.successors b ∧
    ⟨b, n⟩ ∉ g.backEdges) b b
  predecessors : ∀ b, (g.predecessors b).Perm
    (g.blocks.flatMap fun p => .replicate ((g.code.successors p).count b) p)
  again : g.discover.1.blocks = g.blocks ∧ g.discover.1.backEdges = g.backEdges ∧
    ∀ b, g.discover.1.predecessors b = g.predecessors b

theorem idxOf_lt_of_sublist {l : List Nat} {a b : Nat} (hl : l.Nodup) (h : [a, b] <+ l) :
    l.idxOf a < l.idxOf b := by
  have hpair : l.Pairwise fun a b => l.idxOf a < l.idxOf b :=
    List.pairwise_iff_getElem.mpr fun i j hi hj hij => by simpa only [hl.idxOf_getElem] using hij
  simpa using List.Pairwise.sublist h hpair

theorem map_source_edgesFrom (c : Code) (p b : Nat) :
    ((edgesFrom c p).filter (·.target = b)).map (·.source) =
      .replicate ((c.successors p).count b) p := by
  rw [edgesFrom, List.filter_map, List.map_map, List.count_eq_length_filter]
  exact List.map_const' ..

theorem perm_predecessors (g : Graph) (b : Nat) : (g.discover.1.predecessors b).Perm
    (g.discover.1.blocks.flatMap fun p => .replicate ((g.code.successors p).count b) p) := by
  refine (((perm_edges g).filter _).map _).trans (.of_eq ?_)
  rw [List.filter_flatMap, List.map_flatMap]
  exact List.flatMap_congr fun p _ => map_source_edgesFrom g.code p b

theorem discover_ordered {g g' : Graph} (hg : g.discover = (g', none)) : Ordered g' := by
  obtain rfl : g.discover.1 = g' := congrArg Prod.fst hg
  obtain ⟨new, he⟩ := explored_search g.code g.root
  have hnodup := nodup_blocks g
  have hblocks : g.discover.1.blocks = g.root :: new := he.finished.trans (List.append_nil _)
  have hforward : ∀ b ∈ g.discover.1.blocks, ∀ n ∈ g.code.successors b,
      ⟨b, n⟩ ∉ g.discover.1.backEdges → g.discover.1.blocks.idxOf b < g.discover.1.blocks.idxOf n := by
    intro b hb n hn hback
    refine idxOf_lt_of_sublist hnodup ((he.forward b (hblocks ▸ hb) n hn).2.resolve_left ?_)
    exact fun h => hback (List.mem_reverse.mpr h)
  refine ⟨fun b => mem_blocks_iff, hnodup, congrArg List.head? hblocks, hforward,
    fun e hback => ?_, fun b hcycle => ?_, perm_predecessors g, rfl, rfl, fun _ => rfl⟩
  · obtain ⟨hmem, hplace⟩ := (he.back e (List.mem_reverse.mp hback)).resolve_left nofun
    rw [List.append_nil] at hmem
    obtain ⟨b, hb, hmem⟩ := List.mem_flatMap.mp hmem
    obtain ⟨rfl, htarget⟩ := mem_edgesFrom.mp hmem
    refine ⟨hblocks ▸ hb, htarget, ?_⟩
    rcases hplace.resolve_left (fun h => nomatch h.1) with heq | hplace
    · rw [heq]
    · exact (idxOf_lt_of_sublist hnodup hplace).le
  · have hrise := hcycle.lift (p := (· < ·)) g.discover.1.blocks.idxOf fun _ _ h =>
      hforward _ h.1 _ h.2.1 h.2.2
    rw [Relation.transGen_eq_self] at hrise
    exact lt_irrefl _ hrise

/-- Two blocks that jump to each other, and both sides of a branch lead to one of them. -/
def crossed : Graph where
  code := #[{ op := .entry { kind := .graph (some 1) [] [], block := 0 } },
    { op := .entry { kind := .function, block := 1 }, next := some 6 },
    { op := .entry { kind := .target, block := 2 }, next := some 7 },
    { op := .entry { kind := .target, block := 3 }, next := some 8 },
    { op := .entry { kind := .join, block := 4 }, next := some 9 },
    { op := .entry { kind := .join, block := 5 }, next := some 10 },
    { op := .branch .same none none 2 3 }, { op := .goto 4 }, { op := .goto 5 },
    { op := .goto 5 }, { op := .goto 4 }]

theorem crossed_ordered : crossed.discover = (crossed.discover.1, none) ∧
    crossed.discover.1.backEdges = [⟨5, 4⟩] ∧ Ordered crossed.discover.1 :=
  ⟨rfl, rfl, discover_ordered rfl⟩

/-! ## Defects -/

/-- A block is a chain of instructions that ends in its only terminator. -/
structure Code.IsWhole (c : Code) (b : Nat) (l : List Nat) : Prop where
  linked : (b :: l).IsChain c.Linked
  plain : ∀ i ∈ l, (c.op i).asEntry = none
  early : ∀ i ∈ l.dropLast, (c.op i).isTerminator = false
  last : ∃ i, l.getLast? = some i ∧ (c.op i).isTerminator = true ∧ (c.get i).next = none

/-- Jumps lead to blocks, and none leads to the root. -/
structure IsBlockGraph (g : Graph) : Prop where
  root : (g.code.op g.root).isRoot = true
  targets : ∀ i, ∀ j ∈ (g.code.op i).targets, (g.code.op j).asEntry.isSome = true ∧
    (g.code.op j).isRoot = false

section Defects

variable {c : Code} {b i n : Nat} {l : List Nat}

theorem lt_of_plain (h : (c.op i).asEntry = none) : i < c.size := by
  by_contra hi
  rw [Code.op_of_le (Nat.le_of_not_lt hi)] at h
  cases h

/-- A chain passes no instruction twice, since behind the second time it would go on like behind
the first one. -/
theorem nodup_of_early (hl : l.IsChain c.Linked)
    (he : ∀ i ∈ l.dropLast, (c.op i).isTerminator = false)
    (ht : ∀ i ∈ l.getLast?, (c.op i).isTerminator = true) : l.Nodup := by
  induction l with
  | nil => exact .nil
  | cons a l ih =>
    cases l with
    | nil => exact List.nodup_singleton a
    | cons x l =>
      obtain ⟨hax, hl⟩ := List.isChain_cons_cons.mp hl
      rw [List.dropLast_cons_cons, List.forall_mem_cons] at he
      have hnodup := ih hl he.2 (by simpa using ht)
      refine List.nodup_cons.mpr ⟨fun ha => ?_, hnodup⟩
      obtain ⟨k, hk, heq⟩ := List.getElem_of_mem ha
      by_cases hlast : k + 1 < (x :: l).length
      · have hlink := List.isChain_iff_getElem.mp hl k hlast
        rw [heq, Code.Linked, hax] at hlink
        have hzero : 0 < (x :: l).length := Nat.zero_lt_succ _
        have hlater : (x :: l)[0] = (x :: l)[k + 1] := Option.some.inj hlink
        rw [hnodup.getElem_inj_iff] at hlater
        omega
      · have ha : (a :: x :: l).getLast? = some a := by
          rw [List.getLast?_cons_cons, List.getLast?_eq_getElem?, ← heq]
          exact List.getElem?_eq_some_iff.mpr ⟨by omega, by congr; omega⟩
        exact Bool.noConfusion (he.1.symm.trans (ht a ha))

theorem forward_eq (hl : (b :: l).IsChain c.Linked)
    (hend : ∀ i ∈ (b :: l).getLast?, (c.get i).next = none) (hn : l.length ≤ n) :
    c.forward n (c.get b).next = l := by
  induction l generalizing b n with
  | nil =>
    rw [hend b rfl]
    cases n <;> rfl
  | cons x l ih =>
    obtain ⟨hbx, hl⟩ := List.isChain_cons_cons.mp hl
    obtain ⟨n, rfl⟩ := Nat.exists_eq_add_of_lt hn
    rw [hbx]
    exact congrArg (x :: ·) (ih hl (by simpa using hend) (by omega))

theorem next_getLast_forward (hn : (c.forward n (c.get b).next).length < n) :
    ∀ i ∈ (b :: c.forward n (c.get b).next).getLast?, (c.get i).next = none := by
  induction n generalizing b with
  | zero => cases hn
  | succ n ih =>
    cases h : (c.get b).next with
    | none =>
      rintro i ⟨⟩
      exact h
    | some k =>
      rw [h] at hn
      exact ih (b := k) (Nat.lt_of_succ_lt_succ hn)

theorem Code.IsWhole.body_eq (h : c.IsWhole b l) : c.body b = l := by
  obtain ⟨i, hi, hterm, hnext⟩ := h.last
  have hnodup : l.Nodup := nodup_of_early h.linked.tail h.early (by rw [hi]; rintro _ ⟨⟩; exact hterm)
  refine forward_eq h.linked ?_ (length_le_of_lt hnodup fun i hi => lt_of_plain (h.plain i hi))
  rw [List.getLast?_cons, hi]
  rintro _ ⟨⟩
  exact hnext

theorem checkBlock_eq_none_iff (hb : (c.op b).asEntry.isSome = true) (hroot : (c.op b).isRoot = false) :
    (c.checkBlock b).2 = none ↔ ∃ l, c.IsWhole b l := by
  have hcheck : c.checkBlock b = c.checkChain (c.block b) b (c.body b) := by
    unfold Code.checkBlock
    split
    · rename_i hop
      rw [hop] at hroot
      cases hroot
    · rfl
  rw [hcheck, checkChain_eq_none_iff]
  constructor
  · rintro ⟨hplain, hearly, hterm⟩
    have hchain : (b :: c.body b).IsChain c.Linked := isChain_whole c b
    rw [List.getLastD_eq_getLast?] at hterm
    cases hlast : (c.body b).getLast? with
    | none =>
      rw [hlast] at hterm
      cases hop : c.op b <;> simp_all [Op.asEntry, Op.isTerminator]
    | some i =>
      rw [hlast] at hterm
      have hnodup : (c.body b).Nodup := nodup_of_early hchain.tail hearly (by
        rw [hlast]; rintro _ ⟨⟩; exact hterm)
      have hmem : b ∉ c.body b := fun h => by simp [hplain b h] at hb
      have hsize : b < c.size := by
        obtain ⟨k, t, hbody⟩ := List.exists_cons_of_ne_nil (List.ne_nil_of_mem (List.mem_of_getLast? hlast))
        rw [hbody] at hchain
        exact Code.lt_of_next (List.isChain_cons_cons.mp hchain).1
      have hlen := length_le_of_lt (List.nodup_cons.mpr ⟨hmem, hnodup⟩)
        (List.forall_mem_cons.mpr ⟨hsize, fun i hi => lt_of_plain (hplain i hi)⟩)
      refine ⟨_, hchain, hplain, hearly, i, hlast, hterm, next_getLast_forward hlen i ?_⟩
      change (b :: c.body b).getLast? = some i
      rw [List.getLast?_cons, hlast]
      rfl
  · rintro ⟨l, h⟩
    obtain ⟨i, hi, hterm, -⟩ := h.last
    rw [h.body_eq, List.getLastD_eq_getLast?, hi]
    exact ⟨h.plain, h.early, hterm⟩

end Defects

theorem IsBlockGraph.block {g : Graph} {b : Nat} (h : IsBlockGraph g) (hb : g.code.Reaches g.root b) :
    b = g.root ∨ (g.code.op b).asEntry.isSome = true ∧ (g.code.op b).isRoot = false := by
  refine hb.cases_tail.imp id ?_
  rintro ⟨p, -, hp⟩
  obtain ⟨i, -, hi⟩ := exists_target_of_mem_successors hp
  exact h.targets i b hi

theorem discover_accepts_iff {g : Graph} (h : IsBlockGraph g) : g.discover.2 = none ↔
    (∀ b b', g.code.Reaches g.root b → g.code.Reaches g.root b' → g.code.block b = g.code.block b' →
      b = b') ∧ ∀ b, g.code.Reaches g.root b → b ≠ g.root → ∃ l, g.code.IsWhole b l := by
  have hroot : (g.code.checkBlock g.root).2 = none := by
    have hroot := h.root
    unfold Code.checkBlock
    generalize g.code.op g.root = op at hroot
    cases op with
    | entry e =>
      obtain ⟨kind, _, _⟩ := e
      cases kind with
      | graph => rfl
      | _ => cases hroot
    | _ => cases hroot
  rw [discover_eq_none_iff, Code.Sound, List.nodup_map_iff_inj_on (nodup_blocks g)]
  simp only [mem_blocks_iff]
  refine and_congr ⟨fun h b b' hb hb' => h b hb b' hb', fun h b hb b' hb' => h b b' hb hb'⟩ ?_
  refine forall_congr' fun b => forall_congr' fun hb => ?_
  rcases h.block hb with rfl | ⟨hentry, hplain⟩
  · simp [hroot]
  · rw [checkBlock_eq_none_iff hentry hplain]
    refine ⟨fun hwhole _ => hwhole, fun hwhole => hwhole ?_⟩
    rintro rfl
    exact Bool.noConfusion (hplain.symm.trans h.root)

theorem isBlockGraph_crossed : IsBlockGraph crossed := by
  refine ⟨rfl, fun i => ?_⟩
  by_cases hi : i < 11
  · exact (by decide : ∀ i < 11, ∀ j ∈ (crossed.code.op i).targets,
      (crossed.code.op j).asEntry.isSome = true ∧ (crossed.code.op j).isRoot = false) i hi
  · rw [Code.op_of_le (c := crossed.code) (Nat.le_of_not_lt hi)]
    exact nofun

theorem crossed_accepted : IsBlockGraph crossed ∧
    ∀ b, crossed.code.Reaches crossed.root b → b ≠ crossed.root → ∃ l, crossed.code.IsWhole b l :=
  ⟨isBlockGraph_crossed, ((discover_accepts_iff isBlockGraph_crossed).mp rfl).2⟩

end Flowgraph.Graph
