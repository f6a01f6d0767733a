import Flowgraph.Proofs.Lowering.Assembly.Basic
import Flowgraph.Proofs.Lowering.Straight

/-! # Fragments in hand

Code is put together from fragments that nothing leads to yet and that nothing follows
yet. Putting one of them behind another takes back no link, and control that gets
through the whole gets through the one and then through the other.
-/

namespace Flowgraph.Graph

/-- Control that comes to `i` enters the fragment there. If it gets behind the fragment, it goes on
where `next` holds. -/
def Code.Through (c : Code) (f : Fragment) (next : Nat → Prop) (i : Nat) : Prop :=
  match f.entry, f.exit with
  | none, _ => next i
  | some e, none => i = e
  | some e, some x => i = e ∧ ∃ j, c.Linked x j ∧ next j

section Through

variable {c : Code} {f : Fragment} {P Q : Nat → Prop} {e i : Nat}

theorem Code.Through.mono (h : c.Through f P i) (hPQ : ∀ j, P j → Q j) : c.Through f Q i := by
  rcases f with ⟨_ | e, _ | x⟩
  · exact hPQ i h
  · exact hPQ i h
  · exact h
  · exact h.imp_right fun ⟨j, hj, hP⟩ => ⟨j, hj, hPQ j hP⟩

theorem Code.Through.entry (h : c.Through f P i) (he : f.entry = some e) : i = e := by
  rcases f with ⟨_ | _, _ | _⟩
  · cases he
  · cases he
  · exact h.trans (Option.some.inj he)
  · exact h.1.trans (Option.some.inj he)

/-- Control that leaves at the exit of `f` got through `f`. -/
theorem Code.Through.leaving {a : Nat} (h : c.Through ⟨some e, f.exit⟩ P i) (hf : f.entry = some a) :
    c.Through f P a := by
  rcases f with ⟨_ | _, _ | _⟩
  · cases hf
  · cases hf
  · exact (Option.some.inj hf).symm
  · exact ⟨(Option.some.inj hf).symm, h.2⟩

theorem Fragment.eq_of_closed (hf : f.isOpen = false) : ∃ e, f = ⟨some e, none⟩ := by
  rcases f with ⟨_ | e, _ | x⟩
  · cases hf
  · cases hf
  · exact ⟨e, rfl⟩
  · cases hf

/-- Control never gets behind closed code. -/
theorem Code.through_closed (hf : f.isOpen = false) (he : f.entry = some e) : c.Through f P e := by
  obtain ⟨e', rfl⟩ := Fragment.eq_of_closed hf
  exact (Option.some.inj he).symm

theorem Code.Through.of_closed (h : c.Through f P i) (hf : f.isOpen = false) : c.Through f Q i := by
  obtain ⟨e, rfl⟩ := Fragment.eq_of_closed hf
  exact h

end Through

end Flowgraph.Graph

namespace Flowgraph.Lowering

open Assembly (Hands)
open Flowgraph.Graph (Code Fragment Instruction Op Origin)

/-- Nothing leads to the entries of the fragments and nothing follows their exits. All links stay
within the code. -/
structure Held (c : Code) (L : List Fragment) : Prop where
  hands : Hands c L
  bound : ∀ i j, c.Linked i j → j < c.size

section Held

variable {c d : Code} {L L' : List Fragment} {f g : Fragment} {x : Instruction} {i : Nat}
  {P : Nat → Prop}

theorem Held.perm (h : Held c L) (hp : L.Perm L') : Held c L' := ⟨h.hands.perm hp, h.bound⟩

theorem Held.swap (h : Held c (f :: g :: L)) : Held c (g :: f :: L) := h.perm (.swap g f L)

theorem Held.forget (h : Held c (f :: L)) : Held c L :=
  ⟨h.hands.sublist (List.sublist_cons_self f L), h.bound⟩

theorem Held.empty (h : Held c L) : Held c (.empty :: L) :=
  ⟨⟨h.hands.entries, h.hands.exits, by simpa [Fragment.empty] using h.hands.entry,
    by simpa [Fragment.empty] using h.hands.exit⟩, h.bound⟩

theorem Held.exitingAt (h : Held c (f :: .single i :: L)) : Held c (f.exitingAt i :: L) :=
  ⟨h.hands.entryExit, h.bound⟩

theorem extends_push (c : Code) (x : Instruction) : c.Extends (c.push x) :=
  Code.extends_of_ops (by simp) (fun _ => Code.op_push_of_lt) fun i j hij => by
    rwa [Code.Linked, Code.get_push_of_lt (Code.lt_of_next hij)]

theorem Held.push (h : Held c L) (hx : x.next = none) :
    Held (c.push x) (.single c.size :: L) := by
  refine ⟨h.hands.push hx h.bound, fun i j hij => ?_⟩
  rw [Code.Linked, Code.get_push] at hij
  split at hij
  · cases hx.symm.trans hij
  · exact (h.bound i j hij).trans (by simp)

theorem Held.append (h : Held c (f :: g :: L)) : c.Extends (f.append g c).2 ∧
    Held (f.append g c).2 ((f.append g c).1 :: L) ∧
    ∀ {d P i}, (f.append g c).2.Extends d → d.Through (f.append g c).1 P i →
      d.Through f (d.Through g P) i := by
  rcases f with ⟨_ | fe, fx⟩
  · exact ⟨.refl c, h.forget, fun _ hi => hi⟩
  rcases fx with _ | fx
  · exact ⟨.refl c, h.swap.forget, fun _ hi => hi⟩
  rcases g with ⟨_ | ge, gx⟩
  · exact ⟨.refl c, h.swap.forget, fun _ hi => hi⟩
  obtain ⟨hfx, hnext⟩ := h.hands.exit _ List.mem_cons_self fx rfl
  have hge := (h.hands.entry _ (List.mem_cons_of_mem _ List.mem_cons_self) ge rfl).1
  obtain ⟨hext, hlink⟩ : c.Extends (c.link fx ge) ∧ (c.link fx ge).Linked fx ge :=
    Loose.append (f := ⟨some fe, some fx⟩) (g := ⟨some ge, gx⟩) ⟨rfl, rfl, hfx, hnext⟩ rfl hge
  refine ⟨hext, ⟨h.hands.link, fun i j hij => ?_⟩, fun {d P i} hd hi => ?_⟩
  · change ((c.link fx ge).get i).next = some j at hij
    rw [Code.get_link c fx ge i hfx hge] at hij
    change j < (c.link fx ge).size
    rw [Code.size_link]
    dsimp only at hij
    split at hij
    · exact Option.some.inj hij ▸ hge
    · exact h.bound i j hij
  · obtain rfl : i = fe := hi.entry rfl
    refine ⟨rfl, ge, hd.links fx ge hlink, ?_⟩
    cases gx with
    | none => rfl
    | some x => exact ⟨rfl, hi.2⟩

/-- An instruction that ends a block was put behind the fragment. -/
structure Capped (c : Code) (L : List Fragment) (f : Fragment) (op : Op) (g : Fragment) (d : Code) :
    Prop where
  grows : c.Extends d
  held : Held d (g :: L)
  lt : c.size < d.size
  op : d.op c.size = op
  closed : ∃ e, g = ⟨some e, none⟩ ∧ (f.entry = some e ∨ f.entry = none ∧ e = c.size)
  through : ∀ {d' P i}, d.Extends d' → d'.Through g P i → d'.Through f (· = c.size) i

theorem ends_cap {env : Env} {s : State} {op : Op} {origin : Option Origin}
    (h : Held s.code (f :: L)) (hop : op.asEntry = none) :
    Ends env (do let g ← perform op origin; append f g.closed) s fun g t =>
      Capped s.code L f op g t.code ∧ t = { s with code := t.code } := by
  rw [ends_bind, ends_perform, ends_append]
  have hpush := h.push (x := { op, origin, within := env.within }) rfl
  have hclosed : Held _ (f :: ⟨some s.code.size, none⟩ :: L) :=
    (Held.mk hpush.hands.closed hpush.bound).swap
  obtain ⟨hext, hheld, hthrough⟩ := hclosed.append
  refine ⟨⟨(extends_push _ _).trans hext, hheld, ?_, ?_, ?_, hthrough⟩, rfl⟩
  · exact Nat.lt_of_lt_of_le (by simp) hext.size
  · exact hext.op_eq Code.op_push_size hop
  · rcases f with ⟨_ | e, _ | x⟩
    · exact ⟨_, rfl, .inr ⟨rfl, rfl⟩⟩
    · exact ⟨_, rfl, .inr ⟨rfl, rfl⟩⟩
    · exact ⟨e, rfl, .inl rfl⟩
    · exact ⟨e, rfl, .inl rfl⟩

end Held

end Flowgraph.Lowering
