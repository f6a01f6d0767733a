import Flowgraph.Proofs.Graph.Code
import Flowgraph.Proofs.Graph.Search

/-! # Blocks and walks

If no two links lead to one place, the blocks of a checked graph have no instruction
in common, and control that walks from the root stays in them.
-/

namespace Flowgraph.Graph

/-- Where control can go from an instruction. -/
def Code.onward (c : Code) (i : Nat) : List Nat := (c.get i).next.toList ++ (c.op i).targets

/-- Control that starts at an instruction arrives at another one and has passed the
instructions of the list by then. -/
inductive Code.Walk (c : Code) (start : Nat) : List Nat → Nat → Prop
  | start : c.Walk start [] start
  | step {path : List Nat} {i j : Nat} : c.Walk start path i → j ∈ c.onward i →
    c.Walk start (path ++ [i]) j

/-- The instructions of a block with its entry. -/
def Code.whole (c : Code) (b : Nat) : List Nat := b :: c.body b

section Chains

variable {c : Code} {b i j k : Nat}

def Code.Linked (c : Code) (i j : Nat) : Prop := (c.get i).next = some j

theorem isChain_forward (c : Code) (n i : Nat) :
    List.IsChain c.Linked (i :: c.forward n (c.get i).next) := by
  induction n generalizing i with
  | zero => exact .singleton i
  | succ n ih =>
    cases h : (c.get i).next with
    | none => exact .singleton i
    | some j => exact .cons_cons h (ih j)

theorem mem_forward {n : Nat} (hi : i ∈ b :: c.forward n (c.get b).next) (hij : c.Linked i j)
    (hn : (c.forward n (c.get b).next).length < n) : j ∈ c.forward n (c.get b).next := by
  induction n generalizing b with
  | zero => omega
  | succ n ih =>
    cases h : (c.get b).next with
    | none =>
      rw [h] at hi
      obtain rfl := List.mem_singleton.mp hi
      rw [Code.Linked, h] at hij
      cases hij
    | some k =>
      rw [h] at hi hn
      change i ∈ b :: k :: c.forward n (c.get k).next at hi
      change (c.forward n (c.get k).next).length + 1 < n + 1 at hn
      change j ∈ k :: c.forward n (c.get k).next
      rcases List.mem_cons.mp hi with rfl | hi
      · rw [Code.Linked, h] at hij
        exact Option.some.inj hij ▸ List.mem_cons_self
      · exact List.mem_cons_of_mem _ (ih hi (by omega))

/-- From a common instruction, two blocks can be followed back together. -/
theorem back_of_owned (howned : ∀ i k j, c.Linked i j → c.Linked k j → i = k) {l l' : List Nat}
    (hl : l.IsChain c.Linked) (hl' : l'.IsChain c.Linked) (n d : Nat) (h : l[n]? = some i)
    (h' : l'[n + d]? = some i) : l[0]? = l'[d]? := by
  induction n generalizing i with
  | zero => rw [h, ← h', Nat.zero_add]
  | succ n ih =>
    obtain ⟨hn, rfl⟩ := List.getElem?_eq_some_iff.mp h
    have hd : n + 1 + d = n + d + 1 := by omega
    rw [hd] at h'
    obtain ⟨hn', he⟩ := List.getElem?_eq_some_iff.mp h'
    have hlink := List.isChain_iff_getElem.mp hl n hn
    have hlink' := List.isChain_iff_getElem.mp hl' (n + d) hn'
    rw [he] at hlink'
    have heq := howned _ _ _ hlink hlink'
    exact ih (List.getElem?_eq_getElem (by omega))
      (by rw [heq]; exact List.getElem?_eq_getElem (by omega))

/-- A chain without a defect starts no other block, and its last instruction is the only one that
ends it. -/
theorem checkChain_eq_none_iff {block : Int} {last : Nat} {l : List Nat} :
    (c.checkChain block last l).2 = none ↔ (∀ i ∈ l, (c.op i).asEntry = none) ∧
      (∀ i ∈ l.dropLast, (c.op i).isTerminator = false) ∧
      (c.op (l.getLastD last)).isTerminator = true := by
  induction l generalizing last with
  | nil => simp [Code.checkChain]
  | cons i l ih =>
    unfold Code.checkChain
    split
    · rename_i hop
      simp [hop, Op.asEntry]
    rename_i hop
    have hentry : (c.op i).asEntry = none := by
      unfold Op.asEntry
      split
      · exact (hop _ ‹_›).elim
      · rfl
    cases l with
    | nil => simp [Code.checkChain, hentry]
    | cons j l => cases ht : (c.op i).isTerminator <;> simp [ih, hentry, ht, List.getLast?_cons]

end Chains

theorem lastOf_mem_whole (c : Code) (b : Nat) : c.lastOf b ∈ c.whole b :=
  List.mem_cons.mpr (Code.lastOf_eq c b)

theorem exists_target_of_mem_successors {c : Code} {b j : Nat} (hj : j ∈ c.successors b) :
    ∃ i ∈ c.whole b, j ∈ (c.op i).targets := by
  unfold Code.successors at hj
  split at hj
  · rename_i hop
    exact ⟨b, List.mem_cons_self, by rwa [hop]⟩
  · refine ⟨c.lastOf b, lastOf_mem_whole c b, ?_⟩
    split at hj
    · rename_i hop
      rwa [hop]
    · rename_i hop
      rwa [hop]
    · cases hj

theorem walk_whole {c : Code} {start b : Nat} (hb : ∃ path, c.Walk start path b) :
    ∀ i ∈ c.whole b, ∃ path, c.Walk start path i :=
  List.forall_mem_cons.mpr ⟨hb, Code.mem_body (fun i _ ⟨path, hw⟩ hij =>
    ⟨path ++ [i], hw.step (List.mem_append_left _ (Option.mem_toList.mpr hij))⟩) hb⟩

/-- The blocks of a graph are well laid out. -/
structure Laid (g : Graph) : Prop extends Searched g where
  owned : ∀ i k j, g.code.Linked i j → g.code.Linked k j → i = k
  bound : ∀ i j, g.code.Linked i j → j < g.code.size
  entries : ∀ b ∈ g.blocks, b < g.code.size ∧ (g.code.op b).asEntry.isSome = true
  graphs : ∀ b ∈ g.blocks, ∀ e normal handlers defaults, g.code.op b = .entry e →
    e.kind = .graph normal handlers defaults → (g.code.get b).next = none

section Laid

variable {g : Graph} {b b' i j : Nat}

theorem isChain_whole (c : Code) (b : Nat) : (c.whole b).IsChain c.Linked := isChain_forward c c.size b

theorem Laid.checkedBody (h : Laid g) (hb : b ∈ g.blocks) :
    (∀ i ∈ g.code.body b, (g.code.op i).asEntry = none) ∧
      ∀ i ∈ g.code.body b, (g.code.op i).isTerminator = true → g.code.lastOf b = i := by
  have hcheck := h.checked b hb
  unfold Code.checkBlock at hcheck
  split at hcheck
  · rename_i hop
    have hnil : g.code.body b = [] := by
      rw [Code.body, Code.forward, h.graphs b hb _ _ _ _ hop rfl]
      cases g.code.size <;> rfl
    simp [hnil]
  · obtain ⟨hplain, hearly, -⟩ := checkChain_eq_none_iff.mp hcheck
    refine ⟨hplain, fun i hi ht => ?_⟩
    unfold Code.lastOf
    obtain hnil | ⟨l, x, hbody⟩ := List.eq_nil_or_concat' (g.code.body b)
    · simp [hnil] at hi
    · rw [hbody] at hi hearly ⊢
      rcases List.mem_append.mp hi with hi | hi
      · simp [hearly i (by simpa using hi)] at ht
      · simpa [eq_comm] using hi

theorem Laid.index_eq_zero (h : Laid g) (hb : b ∈ g.blocks) (hb' : b' ∈ g.blocks) {d : Nat}
    (hd : (g.code.whole b')[d]? = some b) : d = 0 ∧ b = b' := by
  cases d with
  | zero => exact ⟨rfl, (Option.some.inj hd).symm⟩
  | succ d =>
    have hmem : b ∈ g.code.body b' := List.mem_of_getElem? hd
    have := (h.entries b hb).2
    rw [(h.checkedBody hb').1 b hmem] at this
    cases this

theorem Laid.nodup_whole (h : Laid g) (hb : b ∈ g.blocks) : (g.code.whole b).Nodup := by
  rw [List.nodup_iff_getElem?_ne_getElem?]
  intro i j hij hj heq
  obtain ⟨x, hi⟩ : ∃ x, (g.code.whole b)[i]? = some x := ⟨_, List.getElem?_eq_getElem (by omega)⟩
  have hj' : (g.code.whole b)[i + (j - i)]? = some x := by
    rw [Nat.add_sub_of_le hij.le, ← heq, hi]
  have hback := back_of_owned h.owned (isChain_whole _ b) (isChain_whole _ b) i (j - i) hi hj'
  have := (h.index_eq_zero hb hb hback.symm).1
  omega

theorem Laid.block_unique (h : Laid g) (hb : b ∈ g.blocks) (hb' : b' ∈ g.blocks)
    (hi : i ∈ g.code.whole b) (hi' : i ∈ g.code.whole b') : b = b' := by
  obtain ⟨n, hn⟩ := List.mem_iff_getElem?.mp hi
  obtain ⟨n', hn'⟩ := List.mem_iff_getElem?.mp hi'
  rcases Nat.le_total n n' with hle | hle
  · obtain ⟨d, rfl⟩ := Nat.exists_eq_add_of_le hle
    have hback := back_of_owned h.owned (isChain_whole _ b) (isChain_whole _ b') n d hn hn'
    exact (h.index_eq_zero hb hb' hback.symm).2
  · obtain ⟨d, rfl⟩ := Nat.exists_eq_add_of_le hle
    have hback := back_of_owned h.owned (isChain_whole _ b') (isChain_whole _ b) n' d hn' hn
    exact (h.index_eq_zero hb' hb hback.symm).2.symm

theorem mem_instructions {x : Nat × Nat} :
    x ∈ g.instructions ↔ x.1 ∈ g.blocks ∧ x.2 ∈ g.code.whole x.1 := by
  obtain ⟨b, i⟩ := x
  simp only [instructions, List.mem_flatMap, List.mem_map, Prod.mk.injEq, Code.whole]
  constructor
  · rintro ⟨_, hb, _, hi, rfl, rfl⟩
    exact ⟨hb, hi⟩
  · rintro ⟨hb, hi⟩
    exact ⟨b, hb, i, hi, rfl, rfl⟩

theorem Laid.nodup_instructions (h : Laid g) : (g.instructions.map (·.2)).Nodup := by
  have hmap : g.instructions.map (·.2) = g.blocks.flatMap g.code.whole := by
    simp only [instructions, List.map_flatMap, List.map_map, Function.comp_def, List.map_id']
    rfl
  rw [hmap, List.nodup_flatMap]
  refine ⟨fun b hb => h.nodup_whole hb, ?_⟩
  refine h.nodup.pairwise_of_forall_ne fun b hb b' hb' hne => ?_
  exact fun i hi hi' => hne (h.block_unique hb hb' hi hi')

/-! ## Walks -/

theorem Laid.whole_lt (h : Laid g) (hb : b ∈ g.blocks) : ∀ i ∈ g.code.whole b, i < g.code.size :=
  List.forall_mem_cons.mpr ⟨(h.entries b hb).1,
    Code.mem_body (fun i j _ hij => h.bound i j hij) (h.entries b hb).1⟩

theorem Laid.linked_mem (h : Laid g) (hb : b ∈ g.blocks) (hi : i ∈ g.code.whole b)
    (hij : g.code.Linked i j) : j ∈ g.code.whole b := by
  have hlen := length_le_of_lt (h.nodup_whole hb) (h.whole_lt hb)
  exact List.mem_cons_of_mem _ (mem_forward hi hij hlen)

theorem Laid.targets_subset (h : Laid g) (hb : b ∈ g.blocks) (hi : i ∈ g.code.whole b)
    (hj : j ∈ (g.code.op i).targets) : j ∈ g.code.successors b := by
  unfold Code.successors
  rcases List.mem_cons.mp hi with rfl | hi
  · obtain ⟨e, he⟩ := Option.isSome_iff_exists.mp (h.entries i hb).2
    split
    · rename_i hop
      rwa [hop] at hj
    · rename_i hop
      unfold Op.targets at hj
      split at hj
      · exact (hop _ _ _ _ _ ‹_›).elim
      all_goals simp_all [Op.asEntry]
  · obtain ⟨hplain, hterm⟩ := h.checkedBody hb
    split
    · rename_i hop
      rw [Code.body, Code.forward, h.graphs b hb _ _ _ _ hop rfl] at hi
      cases hn : g.code.size <;> rw [hn] at hi <;> cases hi
    · have hentry := hplain i hi
      unfold Op.targets at hj
      split at hj
      · rename_i hop
        rw [hop] at hentry
        cases hentry
      · rename_i hop
        rw [hterm i hi (by rw [hop]; rfl), hop]
        exact hj
      · rename_i hop
        rw [hterm i hi (by rw [hop]; rfl), hop]
        exact hj
      · cases hj

theorem Laid.lastOf_eq (h : Laid g) (hb : b ∈ g.blocks) (hi : i ∈ g.code.whole b)
    (ht : (g.code.op i).isTerminator = true) : g.code.lastOf b = i := by
  rcases List.mem_cons.mp hi with rfl | hi
  · have hentry := (h.entries i hb).2
    cases hop : g.code.op i <;> simp_all [Op.isTerminator, Op.asEntry]
  · exact (h.checkedBody hb).2 i hi ht

theorem Laid.lastOf_root (h : Laid g) (hb : b ∈ g.blocks) {normal : Option Nat} {handlers : List Nat}
    {defaults : List Constant.Value} {block tryIndex : Int}
    (hop : g.code.op b = .entry { kind := .graph normal handlers defaults, block, tryIndex }) :
    g.code.lastOf b = b := by
  rw [Code.lastOf, Code.body, Code.forward, h.graphs b hb _ _ _ _ hop rfl]
  cases g.code.size <;> rfl

theorem Laid.mem_targets_lastOf (h : Laid g) (hb : b ∈ g.blocks) (hj : j ∈ g.code.successors b) :
    j ∈ (g.code.op (g.code.lastOf b)).targets := by
  unfold Code.successors at hj
  split at hj
  · rename_i hop
    rw [h.lastOf_root hb hop, hop]
    exact hj
  · split at hj
    · rename_i hop
      rwa [hop]
    · rename_i hop
      rwa [hop]
    · cases hj

theorem Laid.mem_predecessors (h : Laid g) :
    b' ∈ g.predecessors b ↔ b' ∈ g.blocks ∧ b ∈ g.code.successors b' := by
  simp only [predecessors, List.mem_map, List.mem_filter, h.edges.mem_iff, List.mem_flatMap,
    edgesFrom, decide_eq_true_eq]
  constructor
  · rintro ⟨_, ⟨⟨p, hp, n, hn, rfl⟩, rfl⟩, rfl⟩
    exact ⟨hp, hn⟩
  · rintro ⟨hp, hn⟩
    exact ⟨⟨b', b⟩, ⟨⟨b', hp, b, hn, rfl⟩, rfl⟩, rfl⟩

theorem Laid.walk_mem (h : Laid g) {path : List Nat} (hw : g.code.Walk g.root path i) :
    i ∈ g.instructions.map (·.2) ∧ ∀ k ∈ path, k ∈ g.instructions.map (·.2) := by
  have hmem : ∀ {i b}, b ∈ g.blocks → i ∈ g.code.whole b → i ∈ g.instructions.map (·.2) :=
    fun hb hi => List.mem_map.mpr ⟨(_, _), mem_instructions.mpr ⟨hb, hi⟩, rfl⟩
  induction hw with
  | start => exact ⟨hmem h.root List.mem_cons_self, nofun⟩
  | step hw hj ih =>
    obtain ⟨hi, hpath⟩ := ih
    refine ⟨?_, List.forall_mem_append.mpr ⟨hpath, List.forall_mem_singleton.mpr hi⟩⟩
    obtain ⟨⟨b, i⟩, hx, rfl⟩ := List.mem_map.mp hi
    obtain ⟨hb, hi⟩ := mem_instructions.mp hx
    rcases List.mem_append.mp hj with hj | hj
    · exact hmem hb (h.linked_mem hb hi (Option.mem_toList.mp hj))
    · exact hmem (h.closed b hb _ (h.targets_subset hb hi hj)) List.mem_cons_self

end Laid

end Flowgraph.Graph
