import Flowgraph.Proofs.Scoping.Frames

/-! # Storage

The level of a scope counts the frames from it outwards, and no two variables share a place, neither
in the frames that are visible from one scope nor on the stack of one function.
-/

namespace Flowgraph.Scoping

variable {a b : Analysis}

/-- The scopes from a scope outwards. -/
inductive Outward (a : Analysis) : Nat → List Nat → Prop
  | last {i : Nat} : (a.scope i).parent = none → Outward a i [i]
  | next {i p : Nat} {l : List Nat} : (a.scope i).parent = some p → Outward a p l →
      Outward a i (i :: l)

/-- How many of the scopes have a frame. -/
def frames (a : Analysis) (l : List Nat) : Nat := l.countP fun i => (a.scope i).hasFrame

namespace Outward

variable {i t u : Nat} {l : List Nat}

theorem of_shape (ha : Shape a) (i : Nat) : ∃ l, Outward a i l := by
  induction i using Nat.strongRecOn with
  | _ i ih =>
    cases hp : (a.scope i).parent with
    | none => exact ⟨[i], .last hp⟩
    | some p =>
      obtain ⟨l, hl⟩ := ih p (ha.parent_lt i p hp)
      exact ⟨i :: l, .next hp hl⟩

theorem split (h : Outward a i l) (ht : t ∈ l) :
    ∃ back, l = l.takeWhile (· ≠ t) ++ t :: back ∧ Outward a t (t :: back) := by
  induction h with
  | last hp =>
    cases List.mem_singleton.mp ht
    exact ⟨[], by simp, .last hp⟩
  | @next i p l hp hl ih =>
    by_cases hi : i = t
    · subst hi
      exact ⟨l, by simp, .next hp hl⟩
    · obtain ⟨back, heq, hback⟩ := ih ((List.mem_cons.mp ht).resolve_left (Ne.symm hi))
      refine ⟨back, ?_, hback⟩
      rw [List.takeWhile_cons_of_pos (by simpa using hi), List.cons_append, ← heq]

theorem comparable (h : Outward a i l) (ht : t ∈ l) (hu : u ∈ l) :
    (∃ k, Outward a t k ∧ u ∈ k) ∨ ∃ k, Outward a u k ∧ t ∈ k := by
  induction h with
  | last hp =>
    cases List.mem_singleton.mp ht
    exact .inl ⟨_, .last hp, hu⟩
  | @next i p l hp hl ih =>
    rcases List.mem_cons.mp ht with rfl | ht'
    · exact .inl ⟨_, .next hp hl, hu⟩
    · rcases List.mem_cons.mp hu with rfl | hu'
      · exact .inr ⟨_, .next hp hl, ht⟩
      · exact ih ht' hu'

end Outward

/-! ## Levels -/

section Levels

variable {i t : Nat} {l : List Nat}

theorem Framed.level_eq (ha : Shape a) (h : Framed a b a.scopes.size) (hi : i < a.scopes.size)
    (hl : Outward b i l) : (b.scope i).level = frames b l - 1 := by
  have hb := ha.sameNames h.names
  induction hl with
  | @last i hp =>
    have houter : outerLevel b i = -1 := by rw [outerLevel, hp]
    rw [h.level i hi, houter, frames, List.countP_singleton]
    split <;> rfl
  | @next i p l hp hl ih =>
    have hlt : p < a.scopes.size := Nat.lt_trans (hb.parent_lt i p hp) hi
    have houter : outerLevel b i = (b.scope p).level := by rw [outerLevel, hp]
    rw [h.level i hi, houter, ih hlt, frames, frames, List.countP_cons]
    split <;> omega

theorem Framed.level_sub (ha : Shape a) (h : Framed a b a.scopes.size) (hi : i < a.scopes.size)
    (hl : Outward b i l) (ht : t ∈ l) (ht' : t < a.scopes.size) :
    (b.scope i).level - (b.scope t).level = frames b (l.takeWhile (· ≠ t)) := by
  obtain ⟨back, heq, hback⟩ := hl.split ht
  have hfront : frames b l = frames b (l.takeWhile (· ≠ t)) + frames b (t :: back) := by
    unfold frames
    rw [← List.countP_append, ← heq]
  rw [h.level_eq ha hi hl, h.level_eq ha ht' hback, hfront]
  omega

theorem Framed.level_lt (ha : Shape a) (h : Framed a b a.scopes.size) (hi : i < a.scopes.size)
    (hframe : (b.scope i).hasFrame = true) (hl : Outward b i l) (ht : t ∈ l) (hne : t ≠ i)
    (ht' : t < a.scopes.size) : (b.scope t).level < (b.scope i).level := by
  have hsub := h.level_sub ha hi hl ht ht'
  have hpos : 0 < frames b (l.takeWhile (· ≠ t)) := by
    refine List.countP_pos_iff.mpr ⟨i, ?_, hframe⟩
    cases hl with
    | last => exact absurd (List.mem_singleton.mp ht) hne
    | next => simp [Ne.symm hne]
  omega

end Levels

/-! ## Captured variables -/

section Captured

variable {v w : Nat}

theorem Framed.slot_eq (ha : Shape a) (h : Framed a b a.scopes.size)
    (hv : (b.var v).isCaptured = true) :
    v ∈ (b.scope (b.var v).scope).vars ∧ (b.var v).scope < a.scopes.size ∧
      (b.scope (b.var v).scope).hasFrame = true ∧
      (b.var v).level = (b.scope (b.var v).scope).level ∧
      (b.scope (b.var v).scope).captured[(b.var v).index]? = some v := by
  have hb := ha.sameNames h.names
  have hlisted := hb.captured_listed v hv
  have hlt : (b.var v).scope < a.scopes.size := h.names.alike.sizes.2.1 ▸ hb.lt_of_listed hlisted
  have hmem : v ∈ (b.scope (b.var v).scope).captured := by
    rw [h.captured _ hlt, ← (h.names.alike.scope _).2.2]
    exact List.mem_filter.mpr ⟨hlisted, h.names.captured v ▸ hv⟩
  obtain ⟨k, hk⟩ := List.getElem?_of_mem hmem
  obtain ⟨hlevel, hindex⟩ := h.slot _ hlt k v hk
  refine ⟨hlisted, hlt, ?_, hlevel, hindex ▸ hk⟩
  rw [h.hasFrame _ hlt, List.isEmpty_eq_false_iff.mpr (List.ne_nil_of_mem hmem)]
  simp

/-- Captured variables that are visible from one scope lie in different places. -/
theorem Framed.place_inj (ha : Shape a) (h : Framed a b a.scopes.size) {i : Nat} {l : List Nat}
    (hl : Outward b i l) (hv : (b.var v).isCaptured = true) (hw : (b.var w).isCaptured = true)
    (hvl : (b.var v).scope ∈ l) (hwl : (b.var w).scope ∈ l) (hlevel : (b.var v).level = (b.var w).level)
    (hindex : (b.var v).index = (b.var w).index) : v = w := by
  obtain ⟨_, hvlt, hvframe, hvlevel, hvslot⟩ := h.slot_eq ha hv
  obtain ⟨_, hwlt, hwframe, hwlevel, hwslot⟩ := h.slot_eq ha hw
  have hscope : (b.var w).scope = (b.var v).scope := by
    apply Classical.byContradiction
    intro hne
    rcases hl.comparable hvl hwl with ⟨k, hk, hmem⟩ | ⟨k, hk, hmem⟩
    · have := h.level_lt ha hvlt hvframe hk hmem hne hwlt
      omega
    · have := h.level_lt ha hwlt hwframe hk hmem (Ne.symm hne) hvlt
      omega
  rw [hscope, ← hindex, hvslot] at hwslot
  exact Option.some.inj hwslot

end Captured

/-! ## Members -/

theorem exists_framed {m : Tree.Member} (h : (analyze m).result = .ok a) :
    ∃ b, Shape b ∧ Framed b a b.scopes.size := by
  obtain ⟨M, hM, rfl⟩ := exists_perform_of_analyze h
  obtain ⟨j, k, hfollow⟩ := Spot.follow_member m
  obtain ⟨-, hagrees⟩ := run_invariant (I := fun _ _ _ => True) (u := []) (fun _ _ _ _ => trivial)
    trivial agrees_start hM hfollow
  exact ⟨M.state.analysis, hagrees.shape, framed_allocate hagrees.shape⟩

/-- Where the variables of an analysis lie. -/
structure Stored (a : Analysis) : Prop where
  /-- Levels count the frames from a scope outwards. -/
  level : ∀ i < a.scopes.size, ∃ l, Outward a i l ∧ (a.scope i).level = frames a l - 1
  /-- A captured variable has the level of its scope and one of its slots. -/
  captured : ∀ v, (a.var v).isCaptured = true → v ∈ (a.scope (a.var v).scope).vars ∧
    (a.var v).level = (a.scope (a.var v).scope).level ∧
    (a.var v).index < (a.scope (a.var v).scope).captured.length
  /-- Captured variables that are visible from one scope lie in different places. -/
  place_inj : ∀ i < a.scopes.size, ∀ l, Outward a i l → ∀ v w, (a.var v).isCaptured = true →
    (a.var w).isCaptured = true → (a.var v).scope ∈ l → (a.var w).scope ∈ l →
    (a.var v).level = (a.var w).level → (a.var v).index = (a.var w).index → v = w
  /-- On the way out to a captured variable there is one frame to leave for each level. -/
  links : ∀ i < a.scopes.size, ∀ l, Outward a i l → ∀ v, (a.var v).isCaptured = true →
    (a.var v).scope ∈ l →
    (a.scope i).level - (a.var v).level = frames a (l.takeWhile (· ≠ (a.var v).scope))
  /-- The variables of one function lie in different places of the stack. -/
  slot_inj : ∀ v < a.vars.size, ∀ w < a.vars.size, (a.var v).function = (a.var w).function →
    (a.var v).slot = (a.var w).slot → v = w

theorem analyze_storage {m : Tree.Member} {a : Analysis} (h : (analyze m).result = .ok a) :
    Stored a := by
  obtain ⟨b, hb, hframed⟩ := exists_framed h
  have ha : Shape a := hb.sameNames hframed.names
  have hsize : a.scopes.size = b.scopes.size := hframed.names.alike.sizes.2.1
  constructor
  case level =>
    intro i hi
    obtain ⟨l, hl⟩ := Outward.of_shape ha i
    exact ⟨l, hl, hframed.level_eq hb (hsize ▸ hi) hl⟩
  case captured =>
    intro v hv
    obtain ⟨hlisted, _, _, hlevel, hslot⟩ := hframed.slot_eq hb hv
    exact ⟨hlisted, hlevel, (List.getElem?_eq_some_iff.mp hslot).1⟩
  case place_inj => exact fun i _ l hl v w hv hw => hframed.place_inj hb hl hv hw
  case links =>
    intro i hi l hl v hv hvl
    obtain ⟨_, hlt, _, hlevel, _⟩ := hframed.slot_eq hb hv
    rw [hlevel]
    exact hframed.level_sub hb (hsize ▸ hi) hl hvl hlt
  case slot_inj => exact ha.slot_inj

section Example

/-- `fun f() { var n; fun g() { (() { n; }); } }` -/
def nesting : Tree.Member :=
  .procedure none ⟨.unknown, "f", .method, true, false, some ⟨0, .unknown, [], 0, [],
    some (.block 1 .unknown [
      .declare { id := 2, place := .unknown, name := "n" },
      .function .unknown { id := 3, place := .unknown, name := "g" } ⟨4, .unknown, [], 0, [],
        some (.block 5 .unknown [
          .expr .unknown (.function .unknown ⟨6, .unknown, [], 0, [],
            some (.block 7 .unknown [.expr .unknown (.get .unknown ⟨2, "n"⟩)])⟩)])⟩])⟩⟩

theorem exists_ok {ε α : Type} {e : Except ε α} {p : α → Bool} (h : e.toOption.any p = true) :
    ∃ a, e = .ok a ∧ p a = true := by
  cases e with
  | error _ => simp [Except.toOption] at h
  | ok a => exact ⟨a, rfl, by simpa [Except.toOption] using h⟩

theorem nesting_storage : ∃ a, (analyze nesting).result = .ok a ∧
    ((a.var 2).isCaptured && a.scopes.size == 6) = true ∧ Stored a := by
  obtain ⟨a, ha, hn⟩ := exists_ok (e := (analyze nesting).result)
    (p := fun a => (a.var 2).isCaptured && a.scopes.size == 6) (by decide +kernel)
  exact ⟨a, ha, hn, analyze_storage ha⟩

end Example

end Flowgraph.Scoping
