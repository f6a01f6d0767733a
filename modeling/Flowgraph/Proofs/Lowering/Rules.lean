import Flowgraph.Proofs.Lowering.Idle

/-! # Rules for putting code together

Whatever is shown of code piece by piece, the pieces are put together in the same few
ways.
-/

namespace Flowgraph.Lowering

open Flowgraph.Graph (Fragment)

/-- A property `Makes` of steps that make code, and the property `Continues` of steps that
put code behind the fragment they are given. Steps within `R` may stand anywhere. -/
structure Rules (R : State → State → Prop) where
  Makes : LowerM Fragment → Prop
  Continues : (Fragment → LowerM Fragment) → Prop
  empty : Makes (pure .empty)
  stop : ∀ {m}, (∀ env s Q, Ends env m s Q) → Makes m
  bind : ∀ {m k}, Makes m → Continues k → Makes (m >>= k)
  idle : ∀ {α : Type} {q : LowerM α} {k : α → LowerM Fragment} [Within R q],
    (∀ a, Makes (k a)) → Makes (q >>= k)
  pure : Continues pure
  trans : ∀ {k k'}, Continues k → Continues k' → Continues fun f => k f >>= k'
  append : ∀ {m}, Makes m → Continues fun f => m >>= append f
  rest : ∀ {α : Type} {q : LowerM α} {k : α → Fragment → LowerM Fragment} [Within R q],
    (∀ a, Continues (k a)) → Continues fun f => q >>= fun a => k a f

namespace Rules

variable {R : State → State → Prop} {d : Rules R} {m m' : LowerM Fragment}
  {ms : List (LowerM Fragment)} {place : Position}

theorem ite {c : Prop} [Decidable c] (hm : d.Makes m) (hm' : d.Makes m') :
    d.Makes (if c then m else m') := by
  split
  · exact hm
  · exact hm'

theorem continues_ite {c : Prop} [Decidable c] {k k' : Fragment → LowerM Fragment}
    (h : d.Continues k) (h' : d.Continues k') :
    d.Continues fun f => if c then k f else k' f := by
  by_cases hc : c
  · simpa only [hc, if_true] using h
  · simpa only [hc, if_false] using h'

theorem chain (h : ∀ m ∈ ms, d.Makes m) : d.Continues fun f => Lowering.chain f ms := by
  induction ms with
  | nil => exact d.pure
  | cons m ms ih =>
    have hrest := ih fun m hm => h m (List.mem_cons_of_mem _ hm)
    have := d.trans (d.append (h m List.mem_cons_self)) hrest
    simpa only [bind_assoc, Lowering.chain] using this

theorem inOrder (h : ∀ m ∈ ms, d.Makes m) : d.Makes (Lowering.inOrder ms) := by
  simpa only [pure_bind, Lowering.inOrder] using d.bind d.empty (d.chain h)

theorem malformed {message : String} : d.Makes (malformed place message) :=
  d.stop fun _ _ _ => ends_malformed

theorem between {x y : LowerM PUnit} [Within R x] [Within R y] (hm : d.Makes m) :
    d.Makes (do x; let f ← m; y; return f) :=
  d.idle fun _ => d.bind hm (d.rest fun _ => d.pure)

theorem atDepths [Calm R] {depths : Depths} (hm : d.Makes m) : d.Makes (atDepths depths m) :=
  d.idle fun _ => d.between hm

theorem balanced [Calm R] {kind : String} (hm : d.Makes m) : d.Makes (balanced place kind m) := by
  refine d.idle fun _ => d.between (d.idle fun before => d.bind hm (d.rest fun after => ?_))
  have hframe : d.Continues fun f => (do
      if after.frame ≠ before.frame then
        Lowering.malformed place (kind ++ " changed the frame level from " ++
          toString before.frame ++ " to " ++ toString after.frame)
      return f : LowerM Fragment) := d.continues_ite (d.rest fun _ => d.pure) d.pure
  exact d.continues_ite (d.rest fun _ => hframe) hframe

end Rules

end Flowgraph.Lowering
