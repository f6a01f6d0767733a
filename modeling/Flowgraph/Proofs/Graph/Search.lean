import Flowgraph.Proofs.Graph.Code
import Flowgraph.Proofs.Graph.Reachable
import Mathlib.Data.List.Nodup
import Mathlib.Data.List.Perm.Basic
import Mathlib.Data.List.Range
import Mathlib.Logic.Relation

/-! # What a search finds

A search visits every block that control can reach from the root, each one once, and
its edges are those between the blocks it visits. A block is finished after all that it
leads to, but for the blocks whose visit goes on.
-/

namespace Flowgraph.Graph

open scoped List

/-- The edges out of a block. -/
def edgesFrom (c : Code) (b : Nat) : List Edge := (c.successors b).map fun n => ⟨b, n⟩

/-- Control can get from one block to another. -/
def Code.Reaches (c : Code) : Nat → Nat → Prop :=
  Relation.ReflTransGen fun b n => n ∈ c.successors b

/-- The visit of a block has begun and has not ended. -/
def Search.IsOpen (s : Search) (b : Nat) : Prop := b ∈ s.started ∧ b ∉ s.finished

/-- The blocks have ids of their own and no defect. -/
def Code.Sound (c : Code) (bs : List Nat) : Prop :=
  (bs.map c.block).Nodup ∧ ∀ b ∈ bs, (c.checkBlock b).2 = none

/-- On the way from `s` to `s'`, the blocks of `new` were visited, and the edges of `es` were
met besides theirs. -/
structure Explored (c : Code) (s s' : Search) (new : List Nat) (es : List Edge) : Prop where
  started : s'.started.Perm (new ++ s.started)
  finished : s'.finished = new ++ s.finished
  edges : s'.edges.Perm (new.flatMap (edgesFrom c) ++ es ++ s.edges)
  nodup : s.started.Nodup → s'.started.Nodup
  grown : s.backEdges ⊆ s'.backEdges
  forward : ∀ b ∈ new, ∀ n ∈ c.successors b, n ∈ s'.started ∧
    (⟨b, n⟩ ∈ s'.backEdges ∨ [b, n] <+ s'.finished)
  met : ∀ e ∈ es, e.target ∈ s'.started ∧ (e ∈ s'.backEdges ∨ e.target ∈ s'.finished)
  back : ∀ e ∈ s'.backEdges, e ∈ s.backEdges ∨ e ∈ new.flatMap (edgesFrom c) ++ es ∧
    (s.IsOpen e.target ∨ e.target = e.source ∨ [e.target, e.source] <+ s'.finished)
  sound : (s.defect = none ↔ c.Sound s.started) → (s'.defect = none ↔ c.Sound s'.started)

section Visit

variable {c : Code} {s s' s'' : Search} {new new' : List Nat} {es es' : List Edge} {b n : Nat}

theorem mem_edgesFrom {e : Edge} : e ∈ edgesFrom c b ↔ e.source = b ∧ e.target ∈ c.successors b := by
  obtain ⟨source, target⟩ := e
  simp [edgesFrom, and_comm, eq_comm]

theorem Explored.refl (c : Code) (s : Search) : Explored c s s [] [] :=
  ⟨.refl _, rfl, .refl _, id, fun _ => id, nofun, nofun, fun _ => .inl, id⟩

theorem Explored.subset (h : Explored c s s' new es) : s.started ⊆ s'.started :=
  fun _ hx => h.started.mem_iff.mpr (List.mem_append_right _ hx)

theorem Explored.sublist (h : Explored c s s' new es) : s.finished <+ s'.finished :=
  h.finished ▸ List.sublist_append_right _ _

theorem Explored.isOpen (h : Explored c s s' new es) (hb : s'.IsOpen b) : s.IsOpen b := by
  obtain ⟨hstarted, hfinished⟩ := hb
  rw [h.finished, List.mem_append, not_or] at hfinished
  exact ⟨(List.mem_append.mp (h.started.mem_iff.mp hstarted)).resolve_left hfinished.1, hfinished.2⟩

theorem Explored.trans (h : Explored c s s' new es) (h' : Explored c s' s'' new' es') :
    Explored c s s'' (new' ++ new) (es' ++ es) where
  started := by
    rw [List.append_assoc]
    exact h'.started.trans (h.started.append_left new')
  finished := by rw [h'.finished, h.finished, List.append_assoc]
  edges := by
    refine h'.edges.trans ((h.edges.append_left _).trans ?_)
    rw [List.flatMap_append]
    grind
  nodup := h'.nodup ∘ h.nodup
  grown := List.Subset.trans h.grown h'.grown
  forward := by
    refine List.forall_mem_append.mpr ⟨h'.forward, fun b hb n hn => ?_⟩
    exact (h.forward b hb n hn).imp (h'.subset ·) (.imp (h'.grown ·) (·.trans h'.sublist))
  met := List.forall_mem_append.mpr ⟨h'.met, fun e he =>
    (h.met e he).imp (h'.subset ·) (.imp (h'.grown ·) (h'.sublist.subset ·))⟩
  back := by
    intro e he
    rw [List.flatMap_append]
    rcases h'.back e he with he | ⟨hmem, hplace⟩
    · refine (h.back e he).imp_right fun ⟨hmem, hplace⟩ => ⟨by grind, ?_⟩
      exact hplace.imp_right (.imp_right (·.trans h'.sublist))
    · exact .inr ⟨by grind, hplace.imp_left h.isOpen⟩
  sound := h'.sound ∘ h.sound

theorem Explored.perm (h : Explored c s s' new es) (hes : es.Perm es') :
    Explored c s s' new es' :=
  { h with
    edges := h.edges.trans ((hes.append_left _).append_right _)
    met := fun e he => h.met e (hes.mem_iff.mpr he)
    back := fun e he => (h.back e he).imp_right (.imp_left ((hes.append_left _).mem_iff.mp ·)) }

theorem explored_addEdge {e : Edge} (ht : e.target ∈ s.started)
    (he : e ∈ s.backEdges ∨ e.target ∈ s.finished) : Explored c s (s.addEdge e) [] [e] :=
  ⟨.refl _, rfl, .refl _, id, fun _ => id, nofun, by simpa using ⟨ht, he⟩, fun _ => .inl, id⟩

theorem explored_addBackEdge {e : Edge} (ht : s.IsOpen e.target) :
    Explored c s ((s.addBackEdge e).addEdge e) [] [e] where
  started := .refl _
  finished := rfl
  edges := .refl _
  nodup := id
  grown := List.subset_cons_self _ _
  forward := nofun
  met := by simpa using ⟨ht.1, .inl List.mem_cons_self⟩
  back := List.forall_mem_cons.mpr ⟨.inr ⟨by simp, .inl ht⟩, fun _ => .inl⟩
  sound := id

theorem sound_start (h : s.defect = none ↔ c.Sound s.started) :
    (s.start c b).defect = none ↔ c.Sound (s.start c b).started := by
  simp only [Search.start, Search.note, Option.or_eq_none_iff, h, Option.map_eq_none_iff,
    List.find?_eq_none, Code.Sound, List.map_cons, List.nodup_cons, List.mem_map,
    List.forall_mem_cons, decide_eq_true_eq]
  grind

theorem Explored.visit (hb : b ∉ s.started)
    (h : Explored c (s.start c b) s' new (edgesFrom c b)) :
    Explored c s (s'.finish b) (b :: new) [] where
  started := h.started.trans List.perm_middle
  finished := congrArg (b :: ·) h.finished
  edges := by
    refine h.edges.trans ?_
    rw [List.flatMap_cons]
    change List.Perm (_ ++ s.edges) _
    grind
  nodup hnd := h.nodup (List.nodup_cons.mpr ⟨hb, hnd⟩)
  grown := h.grown
  forward := by
    refine List.forall_mem_cons.mpr ⟨fun n hn => ?_, fun x hx n hn => ?_⟩
    · exact (h.met ⟨b, n⟩ (mem_edgesFrom.mpr ⟨rfl, hn⟩)).imp_right
        (.imp_right fun hn => (List.singleton_sublist.mpr hn).cons_cons b)
    · exact (h.forward x hx n hn).imp_right (.imp_right (.cons b))
  met := nofun
  back := by
    intro e he
    refine (h.back e he).imp_right fun ⟨hmem, hplace⟩ => ?_
    have hsource : e.source = b ∨ e.source ∈ new := by
      rcases List.mem_append.mp hmem with hmem | hmem
      · obtain ⟨x, hx, hmem⟩ := List.mem_flatMap.mp hmem
        exact .inr ((mem_edgesFrom.mp hmem).1 ▸ hx)
      · exact .inl (mem_edgesFrom.mp hmem).1
    refine ⟨by rw [List.flatMap_cons]; grind, ?_⟩
    rcases hplace with ⟨hstarted, hfinished⟩ | hplace
    · rcases List.mem_cons.mp hstarted with htarget | hstarted
      · refine .inr (hsource.imp (htarget.trans ·.symm) fun hsource => ?_)
        rw [htarget]
        refine (List.singleton_sublist.mpr ?_).cons_cons b
        exact h.finished ▸ List.mem_append_left _ hsource
      · exact .inl ⟨hstarted, hfinished⟩
    · exact .inr (hplace.imp_right (.cons b))
  sound hs := h.sound (sound_start hs)

theorem length_le_of_lt {l : List Nat} {n : Nat} (hnd : l.Nodup) (h : ∀ x ∈ l, x < n) :
    l.length ≤ n := by
  have := (List.subperm_of_subset hnd fun x hx => List.mem_range.mpr (h x hx)).length_le
  rwa [List.length_range] at this

/-- There is room for the blocks that are not started yet. -/
structure Roomy (c : Code) (n : Nat) (s : Search) : Prop where
  nodup : s.started.Nodup
  room : c.size < n + (s.started.filter (· < c.size)).length

theorem Roomy.explored (h : Roomy c n s) (he : Explored c s s' new es) : Roomy c n s' := by
  refine ⟨he.nodup h.nodup, h.room.trans_le (Nat.add_le_add_left ?_ n)⟩
  rw [(he.started.filter _).length_eq, List.filter_append, List.length_append]
  omega

theorem Roomy.pos (h : Roomy c n s) : n ≠ 0 := by
  rintro rfl
  have := length_le_of_lt (h.nodup.filter (· < c.size)) (n := c.size) (by simp)
  have := h.room
  omega

/-- A visit finds every block that control can reach through blocks not started yet. -/
def Visits (c : Code) (n : Nat) : Prop :=
  ∀ s b, b ∉ s.started → Roomy c n s → ∃ new, Explored c s (visit c n s b) (b :: new) []

theorem explored_follow (next : Nat) (hv : Visits c n) (h : Roomy c n s) :
    ∃ new, Explored c s (s.follow c n b next) new [⟨b, next⟩] := by
  unfold Search.follow
  split
  · rename_i hfresh
    obtain ⟨new, he⟩ := hv s next hfresh h
    have hmem : next ∈ (visit c n s next).finished := he.finished ▸ List.mem_cons_self
    exact ⟨_, he.trans (explored_addEdge (he.started.mem_iff.mpr List.mem_cons_self) (.inr hmem))⟩
  · rename_i hstarted
    rw [not_not] at hstarted
    split
    · rename_i hopen
      exact ⟨[], explored_addBackEdge ⟨hstarted, hopen⟩⟩
    · rename_i hfinished
      exact ⟨[], explored_addEdge hstarted (.inr (not_not.mp hfinished))⟩

theorem explored_foldl (hv : Visits c n) (bs : List Nat) (h : Roomy c n s) :
    ∃ new, Explored c s (bs.foldl (Search.follow c n b) s) new (bs.map fun x => ⟨b, x⟩) := by
  induction bs generalizing s with
  | nil => exact ⟨[], .refl c s⟩
  | cons next bs ih =>
    obtain ⟨new, he⟩ := explored_follow (b := b) next hv h
    obtain ⟨new', he'⟩ := ih (h.explored he)
    exact ⟨new' ++ new, (he.trans he').perm List.perm_append_comm⟩

theorem successors_of_le (h : c.size ≤ b) : c.successors b = [] := by
  have hnil : c.body b = [] := by
    rw [Code.body, Code.forward, Code.get_of_le h]
    cases c.size <;> rfl
  rw [Code.successors, Code.op_of_le h, Code.lastOf, hnil]
  simp [Code.op_of_le h]

/-- The depth suffices as long as the blocks that were started leave room. -/
theorem visits (c : Code) (n : Nat) : Visits c n := by
  induction n with
  | zero => exact fun s b _ h => absurd rfl h.pos
  | succ n ih =>
    intro s b hnew h
    rw [visit_succ]
    suffices hfold : ∃ new, Explored c (s.start c b)
        ((c.successors b).foldl (Search.follow c n b) (s.start c b)) new (edgesFrom c b) from
      hfold.imp fun _ he => he.visit hnew
    by_cases hb : b < c.size
    · refine explored_foldl ih _ ⟨List.nodup_cons.mpr ⟨hnew, h.nodup⟩, ?_⟩
      have := h.room
      rw [Search.start, List.filter_cons_of_pos (by simpa using hb), List.length_cons]
      omega
    · rw [edgesFrom, successors_of_le (Nat.le_of_not_lt hb)]
      exact ⟨[], .refl c _⟩

theorem explored_search (c : Code) (root : Nat) :
    ∃ new, Explored c {} (search c root) (root :: new) [] :=
  visits c (c.size + 1) {} root (by simp) ⟨by simp, by simp⟩

end Visit

/-- The blocks of the graph are those that control can reach from its root, and its edges
are theirs. No block has a defect. -/
structure Searched (g : Graph) : Prop where
  nodup : g.blocks.Nodup
  root : g.root ∈ g.blocks
  closed : ∀ b ∈ g.blocks, ∀ n ∈ g.code.successors b, n ∈ g.blocks
  entered : ∀ b ∈ g.blocks, b = g.root ∨ ∃ p ∈ g.blocks, b ∈ g.code.successors p
  edges : g.edges.Perm (g.blocks.flatMap (edgesFrom g.code))
  checked : ∀ b ∈ g.blocks, (g.code.checkBlock b).2 = none

section Discover

variable {g g' : Graph}

theorem perm_blocks (g : Graph) : (search g.code g.root).started.Perm g.discover.1.blocks := by
  obtain ⟨new, he⟩ := explored_search g.code g.root
  exact he.started.trans (.of_eq he.finished.symm)

theorem nodup_blocks (g : Graph) : g.discover.1.blocks.Nodup := by
  obtain ⟨new, he⟩ := explored_search g.code g.root
  exact (perm_blocks g).nodup_iff.mp (he.nodup .nil)

theorem perm_edges (g : Graph) :
    g.discover.1.edges.Perm (g.discover.1.blocks.flatMap (edgesFrom g.code)) := by
  obtain ⟨new, he⟩ := explored_search g.code g.root
  refine (List.reverse_perm _).trans (he.edges.trans ?_)
  simp [discover, he.finished]

theorem mem_blocks_iff {b : Nat} : b ∈ g.discover.1.blocks ↔ g.code.Reaches g.root b := by
  refine ⟨mem_blocks (fun _ hb _ hn => hb.tail hn) .refl b, fun hb => ?_⟩
  obtain ⟨new, he⟩ := explored_search g.code g.root
  have hblocks : g.discover.1.blocks = g.root :: new := he.finished.trans (List.append_nil _)
  induction hb with
  | refl => exact hblocks ▸ List.mem_cons_self
  | tail _ hn ih =>
    exact (perm_blocks g).mem_iff.mp (he.forward _ (hblocks ▸ ih) _ hn).1

theorem discover_eq_none_iff : g.discover.2 = none ↔ g.code.Sound g.discover.1.blocks := by
  obtain ⟨new, he⟩ := explored_search g.code g.root
  refine (he.sound (by simp [Code.Sound])).trans ?_
  rw [Code.Sound, Code.Sound, ((perm_blocks g).map _).nodup_iff]
  exact and_congr_right fun _ => forall_congr' fun b => imp_congr_left (perm_blocks g).mem_iff

theorem searched_discover (hg : g.discover = (g', none)) : Searched g' := by
  obtain ⟨rfl, hdefect⟩ := Prod.mk.inj hg
  refine ⟨nodup_blocks g, mem_blocks_iff.mpr .refl, fun b hb n hn => ?_, fun b hb => ?_,
    perm_edges g, (discover_eq_none_iff.mp hdefect).2⟩
  · exact mem_blocks_iff.mpr ((mem_blocks_iff.mp hb).tail hn)
  · refine (mem_blocks_iff.mp hb).cases_tail.imp_right ?_
    rintro ⟨p, hp, hb⟩
    exact ⟨p, mem_blocks_iff.mpr hp, hb⟩

end Discover

end Flowgraph.Graph
