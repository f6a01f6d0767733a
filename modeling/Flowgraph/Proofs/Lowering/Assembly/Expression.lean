import Flowgraph.Proofs.Lowering.Assembly.Branch

/-! # Expressions

An expression leaves one value on the stack, whatever branches its code has. A branch
leads forward to its arms, and the arms lead forward to the join.
-/

namespace Flowgraph.Lowering.Assembly

open Flowgraph.Graph (Fragment Op)
open Flowgraph.Tree (Expr)

variable {o : Bool}

section Arms

variable {env : Env} {s : State} {γ : Notes} {P : Kept} {L : List Fragment} {a a' a'' : Note}
  {p q r : Mark} {m m' : LowerM Fragment}

theorem made_joinArms {head yes no : Fragment} (hi : Inv o s γ P (no :: yes :: head :: L))
    (room : Room o true env P p q) (hhead : Spans o s.code γ a head ⟨values s, p⟩)
    (hyes : Spans o s.code γ a' yes ⟨values s, p⟩) (hno : Spans o s.code γ a'' no ⟨values s, p⟩) :
    Ends env (joinArms head yes no) s fun f s' => ∃ γ', Made o s γ P L a 0 1 q f s' γ' := by
  obtain ⟨r, room1, room2⟩ := room.split
  unfold joinArms
  refine (begun_makeJoin hi (room2.state rfl)).bind ?_
  rintro join s1 ⟨γ1, h1⟩
  have hi1 : Inv o s1 γ1 P (yes :: no :: .single join :: head :: L) := h1.inv.perm (by grind)
  have hjoin1 := h1.placed
  refine (made_jump hi1 (hyes.calm h1.toCalm) (hjoin1.before room1.lt.2) r).bind ?_
  rintro _ s2 ⟨γ2, h2⟩
  have hc2 := h1.toCalm.trans h2.calm
  have hjoin2 := h2.calm.values ▸ hjoin1.step h2.step
  refine (made_jump h2.inv.forget (hno.calm hc2) (hjoin2.before room1.lt.2) r).bind ?_
  rintro _ s3 ⟨γ3, h3⟩
  have hc3 := hc2.trans h3.calm
  have hjoin3 := h3.calm.values ▸ hjoin2.step h3.step
  have hload : Continues o (fun f => expressionTemp >>= fun temp => chain f [loadLocal temp]) 0 1 :=
    inferInstance
  refine (hload.made env s3 γ3 P L a r q _ h3.inv.forget.swap.exitingAt room2
    (((hhead.calm hc3).until room1.le).leavingAt hjoin3)).mono ?_
  rintro f s4 ⟨γ4, h4⟩
  exact ⟨γ4, h4.after hc3⟩

theorem made_lastArm {head yes : Fragment} {i : Nat} {ms : List (LowerM Fragment)}
    {kind : Op → Bool} [Continues o (fun f => chain f ms) 0 0]
    (hi : Inv o s γ P (.single i :: yes :: head :: L)) (room : Room o true env P p r)
    (room' : Room o true env P r q) (hhead : Spans o s.code γ a head ⟨values s, p⟩)
    (hyes : Spans o s.code γ a' yes ⟨values s, r⟩) (h : Placed kind s.code γ ⟨values s, p⟩ i) :
    Ends env (startingAt i ms >>= joinArms head yes) s fun f s' =>
      ∃ γ', Made o s γ P L a 0 1 q f s' γ' := by
  refine (made_startingAt hi room h).bind ?_
  rintro no s1 ⟨γ1, h1⟩
  refine (made_joinArms h1.inv room' ((hhead.calm h1.calm).until room.le) (hyes.calm h1.calm)
    h1.spans).mono ?_
  rintro f s2 ⟨γ2, h2⟩
  exact ⟨γ2, h2.after h1.calm⟩

theorem makes_conditional {c : LowerM (Fragment × Bool)} [Decides o c] [Makes o m 0 1]
    [Makes o m' 0 1] : Makes o (conditional c m m') 0 1 := by
  refine made_passive fun temp => ⟨fun env s γ P L p q hi room => ?_⟩
  obtain ⟨p1, room1, room2⟩ := room.split
  obtain ⟨p2, room2, room3⟩ := room2.split
  refine (branched_branchOnCondition hi room1).bind ?_
  rintro b s1 ⟨γ1, h1⟩
  have hc1 := h1.calm
  refine (made_startingAt (u := 0) (v := 0) h1.inv room2 h1.yes).bind ?_
  rintro yes s2 ⟨γ2, h2⟩
  refine (made_lastArm h2.inv.swap room2 room3 (h1.code.calm h2.calm) h2.spans
    (h2.calm.values ▸ h1.no.step h2.step)).mono ?_
  rintro f s3 ⟨γ3, h3⟩
  exact ⟨γ3, h3.after (hc1.trans h2.calm)⟩

/-- The code of the right operand is made before it is put behind the entry of its arm. -/
theorem makes_logical {c c' : LowerM (Fragment × Bool)} [Decides o c] [Decides o c'] (isOr : Bool) :
    Makes o (logical isOr c c') 0 1 := by
  refine made_passive fun temp => ⟨fun env s γ P L p q hi room => ?_⟩
  obtain ⟨p1, room1, room2⟩ := room.split
  obtain ⟨p2, room2, room3⟩ := room2.split
  obtain ⟨p3, room3, room4⟩ := room3.split
  refine (branched_branchOnCondition hi room1).bind ?_
  rintro b s1 ⟨γ1, h1⟩
  have hmain : ∀ i j, Inv o s1 γ1 P (.single i :: .single j :: b.code :: L) →
      Placed Op.isTarget s1.code γ1 ⟨values s1, p1⟩ i →
      Placed Op.isTarget s1.code γ1 ⟨values s1, p1⟩ j →
      Ends env (do
        let operand ← c'
        let right ← startingAt i
          [pure operand.1, boolConstant true, strictCompare operand.2, storeLocal temp, drop]
        let short ← startingAt j [boolConstant isOr, storeLocal temp, drop]
        joinArms b.code right short) s1 fun f s' =>
          ∃ γ', Made o s γ P L ⟨values s, p⟩ 0 1 q f s' γ' := by
    intro i j hij hi hj
    refine (decided hij room2).bind ?_
    rintro ⟨f, negated⟩ s2 ⟨γ2, h2⟩
    refine (made_present (u := 1) (v := 0) h2.inv room3 (hi.step h2.step).spans h2.spans).bind ?_
    rintro right s3 ⟨γ3, h3⟩
    have hc := (h2.trans h3).calm
    refine (made_lastArm h3.inv.swap (room2.trans room3) room4 (h1.code.calm hc) h3.spans
      (hc.values ▸ hj.step hc.step)).mono ?_
    rintro g s4 ⟨γ4, h4⟩
    exact ⟨γ4, h4.after (h1.calm.trans hc)⟩
  cases isOr
  · exact hmain b.yes b.no h1.inv h1.yes h1.no
  · exact hmain b.no b.yes h1.inv.swap h1.no h1.yes

theorem makes_ifNull [Makes o m 0 1] [Makes o m' 0 1] : Makes o (ifNull m m') 0 1 := by
  refine made_passive fun temp => ⟨fun env s γ P L p q hi room => ?_⟩
  obtain ⟨p1, room1, room2⟩ := room.split
  obtain ⟨p2, room2, room3⟩ := room2.split
  obtain ⟨p3, room3, room4⟩ := room3.split
  have hleft : Makes o (inOrder [m, storeLocal temp]) 0 1 := inferInstance
  refine (hleft.made env s γ P L p p1 hi room1).bind ?_
  rintro f s1 ⟨γ1, h1⟩
  refine (branched_branchIfNull h1.inv room2).bind ?_
  rintro b s2 ⟨γ2, h2⟩
  refine (h2.behind h1).bind ?_
  rintro g s3 ⟨γ3, h3⟩
  refine (made_startingAt (u := 0) (v := 0) h3.inv room3 h3.yes).bind ?_
  rintro right s4 ⟨γ4, h4⟩
  refine (made_joinArms h4.inv.swap room4 ((h3.code.calm h4.calm).until room3.le) h4.spans
    ((h4.calm.values ▸ h3.no.step h4.step).spans.until room3.le)).mono ?_
  rintro k s5 ⟨γ5, h5⟩
  exact ⟨γ5, h5.after (h3.calm.trans h4.calm)⟩

end Arms

instance : (calculus o true).Complete where
  rethrow _ place env s γ P L p q hi room := by
    unfold rethrowCaught
    rw [ends_bind, ends_get]
    split
    · exact ends_malformed
    · rename_i c rest hc
      exact made_rethrowing
        [loadLocal c.exception, pushArgument, loadLocal c.stackTrace, pushArgument] hi room
        (hi.regions.caught.2 c (hi.regions.caught.1 ▸ hc ▸ List.mem_cons_self))
  conditional hc hm hm' :=
    have : Makes o _ 0 1 := ⟨hm⟩
    have : Makes o _ 0 1 := ⟨hm'⟩
    makes_conditional.made
  logical isOr _ _ hc hc' := (makes_logical isOr).made
  ifNull hm hm' :=
    have : Makes o _ 0 1 := ⟨hm⟩
    have : Makes o _ 0 1 := ⟨hm'⟩
    makes_ifNull.made

instance (e : Expr) : Makes o (lowerExpr e) 0 1 := made_lowerExpr _ e fun _ => rfl

instance (e : Expr) : Decides o (lowerCondition e) := (yields_lower _ e fun _ => rfl).condition

instance (e : Option Expr) : Makes o (lowerOption e) 0 1 := made_lowerOption _ e fun _ => rfl

instance (d : Tree.Declaration) : Makes o (lowerDeclaration d) 0 0 :=
  have := made_declaration (calculus o true) d fun _ => rfl
  inferInstanceAs (Makes o (marked _ _) 0 0)

end Flowgraph.Lowering.Assembly
