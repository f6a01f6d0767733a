import Flowgraph.Proofs.Lowering.Assembly.Compose

/-! # Single instructions

An instruction uses the values that it takes from the stack, and its own value is
put there if it has one. It is marked with the region it is made for, and one that may
throw has to be made where the source is in this region.
-/

namespace Flowgraph.Lowering.Assembly

open Flowgraph.Graph (BlockKind Code Fragment Instruction Op Origin Slot Use)
open Scoping (Variable)

/-- The instruction neither starts a block nor names one. -/
def plain : Op → Bool
  | .entry _ | .goto _ | .branch .. => false
  | _ => true

/-- The values of `T` were taken from the stack. -/
structure Taken (T : List Nat) (s t : State) : Prop extends Beside s t where
  code : t.code = s.code
  values : values s = T ++ values t
  nextBlock : t.nextBlock = s.nextBlock

section Instructions

variable {o b : Bool} {env : Env} {s t s' : State} {γ : Notes} {P : Kept} {L : List Fragment}
  {T : List Nat} {p q : Mark} {op : Op} {origin : Option Origin} {x : Instruction}

theorem Taken.refl (s : State) : Taken [] s s := ⟨.refl s, rfl, rfl, rfl⟩

theorem Taken.same {t' : State} (h : Taken T s t) (hs : Same t t') : Taken T s t' where
  toBeside := h.toBeside.trans hs.toBeside
  code := hs.code.trans h.code
  values := h.values.trans (by rw [hs.values])
  nextBlock := hs.nextBlock.trans h.nextBlock

theorem ends_pop (h : Taken T s t) :
    Ends env pop t fun top t' => Taken (T ++ [top.definition]) s t' := by
  unfold pop
  rw [ends_bind, ends_get]
  split
  · exact ends_inconsistent
  · rename_i top stack hs
    rw [ends_bind, ends_modify, ends_pure]
    refine ⟨h.toBeside.trans ⟨rfl, rfl, rfl, rfl, rfl⟩, h.code, ?_, h.nextBlock⟩
    rw [h.values]
    simp [values, hs]

theorem ends_popUse (h : Taken T s t) :
    Ends env popUse t fun u t' => ∃ d, u = some d ∧ Taken (T ++ [d]) s t' :=
  (ends_pop h).bind fun top _ ht => ends_pure.mpr ⟨top.definition, rfl, ht⟩

theorem ends_popArguments {n : Nat} {args : List Use} (h : Taken T s t) :
    Ends env (popArguments n args) t fun us t' =>
      ∃ ds, ds.length = n ∧ us = ds.reverse.map some ++ args ∧ Taken (T ++ ds) s t' := by
  induction n generalizing t T args with
  | zero => exact ends_pure.mpr ⟨[], rfl, rfl, by simpa using h⟩
  | succ n ih =>
    unfold popArguments
    refine (ends_pop h).bind fun top t' ht => ?_
    rw [ends_bind, ends_get]
    split
    · refine (ih ht).mono ?_
      rintro us t'' ⟨ds, hlen, rfl, ht⟩
      exact ⟨top.definition :: ds, by simp [hlen], by simp, by simpa using ht⟩
    · exact ends_inconsistent

theorem ends_takeArguments {n : Nat} (h : Taken T s t) :
    Ends env (takeArguments n) t fun us t' =>
      ∃ ds, ds.length = n ∧ us = ds.reverse.map some ∧ Taken (T ++ ds) s t' := by
  unfold takeArguments
  rw [ends_bind, ends_get]
  dsimp only
  split
  · rw [ends_bind]
    exact ends_inconsistent
  · refine (ends_popArguments h).bind ?_
    rintro us t' ⟨ds, hlen, rfl, ht⟩
    rw [ends_bind, ends_modify, ends_pure]
    exact ⟨ds, hlen, List.append_nil _, ht.same ⟨⟨rfl, rfl, rfl, rfl, rfl⟩, rfl, rfl, rfl⟩⟩

theorem made_taken (hi : Inv o s γ P L) (hpq : p ≤ q) (ht : Taken T s t) :
    Made o s γ P L ⟨values s, p⟩ T.length 0 q .empty t γ := by
  have hunused : Unused (values t) s.code := by
    have hsub : (values t ++ s.code.collect Op.used).Sublist (values s ++ s.code.collect Op.used) := by
      rw [ht.values]
      exact (List.sublist_append_right T _).append_right _
    exact ⟨hi.unused.nodup.sublist hsub, fun d hd => hi.unused.bound d (hsub.subset hd)⟩
  have inv : Inv o t γ P L := by
    obtain ⟨sound, hands, -, sides, blocks, handlers, regions⟩ := hi
    refine ⟨?_, ?_, ?_, ?_, ?_, ?_, regions.congr ht.toBeside ht.code⟩ <;> rw [ht.code]
    · exact sound
    · exact hands
    · exact hunused
    · exact sides
    · rw [ht.nextBlock]
      exact blocks
    · rw [ht.handlers]
      exact handlers
  have heffect := effect_append T [] (values t)
  rw [← ht.values] at heffect
  refine ⟨inv.empty, ⟨ht.code ▸ .refl _ _, ht.nextTry.ge⟩, heffect, spans_empty ⟨?_, hpq⟩, ht.around⟩
  rw [ht.values]
  exact List.subset_append_right T _

/-- A new instruction is noted with all that was on the stack. Its own value is put there if
`V` has it. -/
theorem made_instruction {V : List Nat} {f : Fragment} {w : State} (hi : Inv o s γ P L)
    (ht : Taken T s t) (hpq : p ≤ q) (hx : Fits s.nextTry s.code γ x ⟨values s, p⟩)
    (hentry : x.op.asEntry = none)
    (hsides : x.op.sides = []) (hin : x.op.inputs.Perm (T.map some)) (hc : w.code = t.code.push x)
    (hv : values w = V ++ values t) (hV : V = [] ∨ V = [t.code.size])
    (hb : w.nextBlock = t.nextBlock) (hs : Beside t w)
    (hf : f = .single t.code.size ∧ (V ≠ [] → x.op.isDefinition = true) ∨
      f = (Fragment.single t.code.size).closed) :
    ∃ γ', Made o s γ P L ⟨values s, p⟩ T.length V.length q f w γ' := by
  have hused : x.op.used.Perm T := by
    have := hin.filterMap id
    simpa [Op.used, List.reduceOption, List.filterMap_map] using this
  have hunused : Unused (values w) (s.code.push x) := by
    have h := hi.unused
    rw [ht.values] at h
    rcases hV with rfl | rfl <;> rw [hv]
    · exact h.push hused
    · rw [ht.code]
      exact h.cons hused
  have heffect := effect_append T V (values t)
  rw [← ht.values, ← hv] at heffect
  rw [ht.code] at hc hf hV
  have inv : Inv o w (Function.update γ s.code.size ⟨values s, p⟩) P (.single s.code.size :: L) := by
    refine hi.push hx ?_ hc (hc ▸ hunused) ?_ (ht.toBeside.trans hs)
    · rw [hsides, List.append_nil]
      exact hi.sides
    · rw [hc, hb, ht.nextBlock]
      exact hi.blocks.push hentry
  have step : Step s γ w (Function.update γ s.code.size ⟨values s, p⟩) :=
    ⟨hc ▸ grows_push, (ht.toBeside.trans hs).nextTry.ge⟩
  have hat : s.code.size < w.code.size ∧
      Function.update γ s.code.size ⟨values s, p⟩ s.code.size = ⟨values s, p⟩ :=
    ⟨by rw [hc]; simp, Function.update_self ..⟩
  rcases hf with ⟨rfl, hd⟩ | rfl
  · refine ⟨_, inv, step, heffect, ⟨?_, ?_, nofun⟩, hs.around.trans ht.around⟩
    · rintro e ⟨⟩
      exact hat.imp_right Eq.ge
    · rintro y ⟨⟩
      refine ⟨hat.1, fun d hmem => ?_, ?_, fun _ _ => ?_⟩ <;> rw [hat.2]
      · rw [hv] at hmem
        rcases List.mem_append.mp hmem with hmem | hmem
        · obtain rfl | rfl := hV
          · cases hmem
          · obtain rfl := List.mem_singleton.mp hmem
            exact .inr ⟨rfl, by rw [hc, Code.op_push_size]; exact hd (by simp)⟩
        · exact .inl (by rw [ht.values]; exact List.mem_append_right _ hmem)
      · exact hpq.1
      · exact hpq.2
  · refine ⟨_, inv.closed, step, heffect, ⟨?_, nofun, nofun⟩, hs.around.trans ht.around⟩
    rintro e ⟨⟩
    exact hat.imp_right Eq.ge

theorem made_plain {V : List Nat} {f : Fragment} {w : State} (hi : Inv o s γ P L) (ht : Taken T s t)
    (hpq : p ≤ q) (hn : x.next = none) (hp : plain x.op = true)
    (hthrows : x.op.mayThrow = true → p.region = coverOf x.within)
    (hre : ∀ y z r, x.op = .rethrow y z r → IsTry s.nextTry r)
    (hin : x.op.inputs.Perm (T.map some)) (hc : w.code = t.code.push x)
    (hv : values w = V ++ values t) (hV : V = [] ∨ V = [t.code.size])
    (hb : w.nextBlock = t.nextBlock) (hs : Beside t w)
    (hf : f = .single t.code.size ∧ (V ≠ [] → x.op.isDefinition = true) ∨
      f = (Fragment.single t.code.size).closed) :
    ∃ γ', Made o s γ P L ⟨values s, p⟩ T.length V.length q f w γ' := by
  have hop : x.op.asEntry = none ∧ x.op.sides = [] ∧ x.op.isRoot = false := by
    cases hop : x.op <;> rw [hop] at hp <;> first | exact ⟨rfl, rfl, rfl⟩ | cases hp
  obtain ⟨hentry, hsides, hroot⟩ := hop
  refine made_instruction hi ht hpq ?_ hentry hsides hin hc hv hV hb hs hf
  exact
    { next := hn, root := hroot, throws := hthrows, rethrow := hre
      inputs := fun u hu => by
        obtain ⟨d, hd, rfl⟩ := List.mem_map.mp (hin.mem_iff.mp hu)
        exact ⟨d, by simp [ht.values, hd], rfl⟩
      jump := fun k hk => by
        rw [hk] at hp
        cases hp
      sides := fun k hk => by
        rw [hsides] at hk
        cases hk
      entry := fun e he => by
        rw [he] at hp
        cases hp }

theorem Room.fits (room : Room o b env P p q) (h : fits b op = true) : plain op = true ∧
    (op.mayThrow = true → p.region = coverOf env.within) ∧ ∀ y z r, op ≠ .rethrow y z r := by
  obtain ⟨hs, ht⟩ := Bool.and_eq_true_iff.mp h
  refine ⟨?_, fun hop => (room.source (by simpa [hop] using ht)).symm, ?_⟩
  · cases op <;> first | rfl | cases hs
  · rintro _ _ _ rfl
    cases hs

theorem made_define (hi : Inv o s γ P L) (ht : Taken T s t) (room : Room o b env P p q)
    (h : fits b op = true) (hd : op.isDefinition = true) (hin : op.inputs.Perm (T.map some)) :
    Ends env (define op origin) t fun f s' =>
      ∃ γ', Made o s γ P L ⟨values s, p⟩ T.length 1 q f s' γ' := by
  obtain ⟨hp, hthrows, hno⟩ := room.fits h
  exact ends_define.mpr <| made_plain (V := [t.code.size])
    (x := { op, origin, within := env.within, temp := t.nextTemp }) hi ht room.le rfl hp hthrows
    (fun y z r hr => absurd hr (hno y z r)) hin rfl rfl (.inr rfl) rfl ⟨rfl, rfl, rfl, rfl, rfl⟩
    (.inl ⟨rfl, fun _ => hd⟩)

/-- What throws stands on the stack like a value, but nothing follows it. -/
theorem made_throw (hi : Inv o s γ P L) (ht : Taken T s t) (room : Room o true env P p q)
    (hp : plain op = true) (hre : ∀ y z r, op = .rethrow y z r → IsTry s.nextTry r)
    (hin : op.inputs.Perm (T.map some)) :
    Ends env (define op origin >>= fun f => pure f.closed) t fun f s' =>
      ∃ γ', Made o s γ P L ⟨values s, p⟩ T.length 1 q f s' γ' := by
  rw [ends_bind, ends_define, ends_pure]
  exact made_plain (V := [t.code.size])
    (x := { op, origin, within := env.within, temp := t.nextTemp }) hi ht room.le rfl hp
    (fun _ => (room.source rfl).symm) hre hin rfl rfl (.inr rfl) rfl ⟨rfl, rfl, rfl, rfl, rfl⟩
    (.inr rfl)

theorem made_perform (hi : Inv o s γ P L) (ht : Taken T s t) (room : Room o b env P p q)
    (h : fits b op = true) (hin : op.inputs.Perm (T.map some)) :
    Ends env (perform op origin) t fun f s' =>
      ∃ γ', Made o s γ P L ⟨values s, p⟩ T.length 0 q f s' γ' := by
  obtain ⟨hp, hthrows, hno⟩ := room.fits h
  exact ends_perform.mpr <| made_plain (V := []) (x := { op, origin, within := env.within }) hi ht
    room.le rfl hp hthrows (fun y z r hr => absurd hr (hno y z r)) hin rfl rfl (.inl rfl) rfl
    ⟨rfl, rfl, rfl, rfl, rfl⟩ (.inl ⟨rfl, fun h => absurd rfl h⟩)

theorem made_giveBack (hi : Inv o s γ P L) (p q : Mark) :
    Ends env giveBack s fun f s' => ∃ γ', Made o s γ P L ⟨values s, p⟩ 1 0 q f s' γ' := by
  refine (ends_popUse (.refl s)).bind ?_
  rintro _ t ⟨value, rfl, ht⟩
  rw [ends_bind, ends_perform, ends_pure]
  let x : Instruction := { op := .giveBack (some value), within := env.within }
  obtain ⟨γ', h⟩ := made_plain (q := p) (V := []) (f := (Fragment.single t.code.size).closed)
    (x := x) (w := { t with code := t.code.push x }) hi ht le_rfl rfl rfl nofun
    (by rintro _ _ _ ⟨⟩) (.refl _) rfl rfl (.inl rfl) rfl ⟨rfl, rfl, rfl, rfl, rfl⟩ (.inr rfl)
  exact ⟨γ', { h with spans := h.spans.anywhere rfl }⟩

end Instructions

/-! ## The calculus of assembled code -/

/-- Every value is used once, by what takes it from the stack. Code that is not `bound` throws
nothing, and can be made outside of its region. -/
def calculus (ordered bound : Bool) : Calculus Same where
  Makes := Creates ordered bound
  Continues := Extends ordered bound
  Closes := bound = true
  throws := bound
  empty := creates_empty
  stop h := fun env s _ _ _ _ _ _ _ => h env s _
  bind := .bind
  passive := .silent
  pure := extends_pure
  trans := .trans
  append := Creates.append
  rest := .silent
  above := .above
  named hm hk := hm.bind (.silent hk)
  define h hd hin := fun _ s _ _ _ _ _ hi room =>
    made_define hi (.refl s) room h hd (by rw [hin]; exact .nil)
  perform h hin := fun _ s _ _ _ _ _ hi room =>
    made_perform hi (.refl s) room h (by rw [hin]; exact .nil)
  unary h hd hin := by
    intro env s γ P L p q hi room
    refine (ends_popUse (.refl s)).bind ?_
    rintro _ t ⟨d, rfl, ht⟩
    exact made_define hi ht room (h _) (hd _) (by rw [hin]; exact .refl _)
  storeField _ _ := by
    intro env s γ P L p q hi room
    refine (ends_popUse (.refl s)).bind ?_
    rintro _ t1 ⟨value, rfl, ht1⟩
    refine (ends_popUse ht1).bind ?_
    rintro _ t2 ⟨object, rfl, ht2⟩
    exact made_perform hi ht2 room rfl (.swap ..)
  storeStaticField _ := by
    intro env s γ P L p q hi room
    refine (ends_popUse (.refl s)).bind ?_
    rintro _ t ⟨value, rfl, ht⟩
    exact made_perform hi ht room rfl (.refl _)
  storeIndexed := by
    intro env s γ P L p q hi room
    refine (ends_popUse (.refl s)).bind ?_
    rintro _ t1 ⟨value, rfl, ht1⟩
    refine (ends_popUse ht1).bind ?_
    rintro _ t2 ⟨index, rfl, ht2⟩
    refine (ends_popUse ht2).bind ?_
    rintro _ t3 ⟨array, rfl, ht3⟩
    exact made_perform hi ht3 room rfl (List.reverse_perm [some value, some index, some array])
  strictCompare _ := by
    intro env s γ P L p q hi room
    refine (ends_popUse (.refl s)).bind ?_
    rintro _ t1 ⟨right, rfl, ht1⟩
    refine (ends_popUse ht1).bind ?_
    rintro _ t2 ⟨left, rfl, ht2⟩
    exact made_define hi ht2 room rfl rfl (.swap ..)
  staticCall h _ _ _ := by
    intro env s γ P L p q hi room
    refine (ends_takeArguments (.refl s)).bind ?_
    rintro _ t ⟨ds, rfl, rfl, ht⟩
    exact made_define hi ht room (h ▸ rfl) rfl ((List.reverse_perm ds).map some)
  instanceCall h _ _ _ := by
    intro env s γ P L p q hi room
    refine (ends_takeArguments (.refl s)).bind ?_
    rintro _ t ⟨ds, rfl, rfl, ht⟩
    exact made_define hi ht room (h ▸ rfl) rfl ((List.reverse_perm ds).map some)
  pushArgument := by
    intro env s γ P L p q hi room
    refine (ends_popUse (.refl s)).bind ?_
    rintro _ t ⟨value, rfl, ht⟩
    have ht' : Taken [value] s { t with pendingArguments := t.pendingArguments + 1 } :=
      ht.same ⟨⟨rfl, rfl, rfl, rfl, rfl⟩, rfl, rfl, rfl⟩
    rw [ends_bind, ends_modify]
    exact made_define hi ht' room rfl rfl (.refl _)
  -- A value that is neither named nor read from a variable is dropped without a use.
  drop := by
    intro env s γ P L p q hi room
    refine (ends_pop (.refl s)).bind fun top t ht => ?_
    rw [ends_bind, ends_get]
    split
    · exact ends_pure.mpr ⟨γ, made_taken hi room.le ht⟩
    · exact made_perform hi ht room rfl (.refl _)
  giveBack _ := fun _ _ _ _ _ p q hi _ => made_giveBack hi p q
  throwException h := by
    intro env s γ P L p q hi room
    subst h
    refine (ends_popUse (.refl s)).bind ?_
    rintro _ t ⟨value, rfl, ht⟩
    exact made_throw hi ht room rfl nofun (.refl _)

section Calculus

variable {o : Bool}

/-- The step makes code that takes `u` values from the stack and leaves `v`. -/
abbrev Makes (ordered : Bool) (m : LowerM Fragment) (u v : outParam Nat) : Prop :=
  (calculus ordered true).Made m u v

/-- The step puts such code behind the fragment it is given. -/
abbrev Continues (ordered : Bool) (k : Fragment → LowerM Fragment) (u v : outParam Nat) : Prop :=
  (calculus ordered true).Adds k u v

instance : (calculus o true).Throwing := ⟨rfl⟩

instance : (calculus o true).Closing := ⟨rfl⟩

instance (e : Graph.Event) {m : LowerM Fragment} {u v : Nat} [hm : Makes o m u v] :
    Makes o (marked e m) u v where
  made env s γ P L p q hi room := by
    refine (hm.made env s γ P L p q hi room).bind ?_
    rintro f s1 ⟨γ1, h1⟩
    exact ends_silent fun _ s2 same => ends_pure.mpr ⟨γ1, h1.same same⟩

theorem made_rethrowing {env : Env} {s : State} {γ : Notes} {P : Kept} {L : List Fragment}
    {p q : Mark} {t : Int} (ms : List (LowerM Fragment))
    [hms : Makes o (inOrder ms) 0 2] (hi : Inv o s γ P L) (room : Room o true env P p q)
    (ht : IsTry s.nextTry t) :
    Ends env (inOrder (ms ++ [rethrowException t])) s fun f s' =>
      ∃ γ', Made o s γ P L ⟨values s, p⟩ 0 1 q f s' γ' := by
  obtain ⟨r, room1, room2⟩ := room.split
  unfold inOrder
  rw [chain_append]
  refine (hms.made env s γ P L p r hi room1).bind ?_
  rintro f s1 ⟨γ1, h1⟩
  rw [chain_one]
  refine (made_behind (u := 2) (v := 1) h1.spans ?_).mono fun _ _ ⟨γ2, h2⟩ => ⟨γ2, h1.trans h2⟩
  refine (ends_popUse (.refl s1)).bind ?_
  rintro _ t1 ⟨stackTrace, rfl, ht1⟩
  refine (ends_popUse ht1).bind ?_
  rintro _ t2 ⟨exception, rfl, ht2⟩
  have hplain : plain (.rethrow (some exception) (some stackTrace) t) = true := rfl
  refine made_throw h1.inv ht2 room2 hplain ?_ (.swap ..)
  rintro _ _ _ ⟨⟩
  exact ht.mono h1.step.nextTry

end Calculus

end Flowgraph.Lowering.Assembly
