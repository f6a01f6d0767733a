import Flowgraph.Memo.Holder

/-! # Requests of one holder

What happens to the fields while one holder asks for them is governed by rules: each step is
possible only after certain others. A field that has an outcome keeps it, and the fields that
are being computed are those on the stack of computations.
-/

namespace Flowgraph.Memo

variable {κ η π ε α β : Type}

/-! ## What the steps tell -/

section Steps

/-- Does a computation end with an outcome? -/
def Ending.isOutcome : Ending π ε α → Bool
  | .broken _ => false
  | _ => true

/-- The fields that are being computed, the innermost one first. -/
def stack : List (Step κ π ε α) → List κ
  | [] => []
  | .started key :: earlier => key :: stack earlier
  | .ended _ _ :: earlier => (stack earlier).tail
  | _ :: earlier => stack earlier

variable [DecidableEq κ]

/-- Is a computation of the field broken off here? -/
def Step.breaks (key : κ) : Step κ π ε α → Bool
  | .ended k (.broken _) => k = key
  | _ => false

/-- Does a computation of the field end with an outcome here? -/
def Step.settles (key : κ) : Step κ π ε α → Bool
  | .ended k ending => k = key && ending.isOutcome
  | _ => false

/-- Memoization that computes once and lets computations ask again, told by the steps. -/
structure Once (c : CycleError κ ε) (steps : List (Step κ π ε α)) : Prop where
  /-- A field that has an outcome is not computed again, and each later answer is this outcome. -/
  keeps : ∀ {later key e earlier}, steps = later ++ .ended key e :: earlier → e.isOutcome = true →
    .started key ∉ later ∧ ∀ e', .answered key e' ∈ later → e' = e
  /-- A request fails for a cycle at once if its field is being computed around it or has such a
  failure for its outcome, and only then. -/
  cyclic : ∀ {later x key earlier}, steps = later ++ x :: .asked key :: earlier →
    ((∃ e, c.isCyclic e = true ∧ x = .answered key (.error e)) ↔
      key ∈ stack earlier ∨ ∃ e, c.isCyclic e = true ∧ .ended key (.error e) ∈ earlier)
  /-- A request computes its field if that is not being computed and has no outcome, whether or
  not computations of it were broken off, and only then. -/
  computes : ∀ {later x key earlier}, steps = later ++ x :: .asked key :: earlier →
    (x = .started key ↔ key ∉ stack earlier ∧ earlier.any (·.settles key) = false)
  /-- At each time all computations of a field were broken off but the one that goes on or has
  given the outcome. -/
  runs : ∀ {later earlier}, steps = later ++ earlier → ∀ key,
    earlier.countP (·.starts key) = earlier.countP (·.breaks key) +
      if key ∈ stack earlier ∨ earlier.any (·.settles key) = true then 1 else 0

/-- The slot of a field after the steps. -/
def content (key : κ) : List (Step κ π ε α) → Slot ε α
  | [] => .idle
  | .started k :: earlier => if k = key then .computing else content key earlier
  | .ended k ending :: earlier => if k = key then ending.slot else content key earlier
  | _ :: earlier => content key earlier

/-- The answer to a request that finds the slot so. An idle one is computed first. -/
def Slot.answer? (c : CycleError κ ε) (key : κ) : Slot ε α → Option (Ending π ε α)
  | .idle => none
  | .computing => some (.error (c.error key))
  | .computed (.ok a) => some (.value a)
  | .computed (.error e) => some (.error e)

/-- Is a request not yet followed up? -/
def isPending : List (Step κ π ε α) → Bool
  | .asked _ :: _ => true
  | _ => false

/-- The steps that one holder makes possible. -/
inductive Legal (c : CycleError κ ε) : List (Step κ π ε α) → Prop
  | nil : Legal c []
  | peeked {l key value} : Legal c l → isPending l = false → Legal c (.peeked key value :: l)
  | asked {l key} : Legal c l → isPending l = false → Legal c (.asked key :: l)
  | started {l key} : Legal c (.asked key :: l) → content key l = .idle →
      Legal c (.started key :: .asked key :: l)
  | ended {l key ending} : Legal c l → isPending l = false → (stack l).head? = some key →
      Legal c (.ended key ending :: l)
  | answered {l key ending} : Legal c (.asked key :: l) →
      (content key l).answer? c key = some ending → Legal c (.answered key ending :: .asked key :: l)
  | handed {l key ending} : Legal c (.ended key ending :: l) →
      Legal c (.answered key ending :: .ended key ending :: l)

variable {c : CycleError κ ε} {l earlier later : List (Step κ π ε α)} {key : κ} {e : Ending π ε α}
  {x : Step κ π ε α}

theorem Legal.tail (h : Legal c (x :: l)) : Legal c l := by
  cases h <;> assumption

theorem Legal.suffix (h : Legal c (later ++ earlier)) : Legal c earlier := by
  induction later with
  | nil => exact h
  | cons x later ih => exact ih h.tail

theorem slot_ne_computing : e.slot ≠ .computing := by cases e <;> simp [Ending.slot]

theorem slot_eq_idle : e.slot = .idle ↔ e.isOutcome = false := by
  cases e <;> simp [Ending.slot, Ending.isOutcome]

theorem Legal.stack (h : Legal c l) :
    (stack l).Nodup ∧ ∀ key, key ∈ Memo.stack l ↔ content key l = .computing := by
  induction h with
  | nil => simp [Memo.stack, content]
  | peeked _ _ ih | asked _ _ ih | answered _ _ ih | handed _ ih => exact ih
  | @started l key _ hidle ih =>
    have hnot : key ∉ Memo.stack l := fun hmem => by
      have := (ih.2 key).mp hmem
      simp [content, hidle] at this
    refine ⟨List.nodup_cons.mpr ⟨hnot, ih.1⟩, fun k => ?_⟩
    by_cases hk : key = k
    · simp [Memo.stack, content, hk]
    · simpa [Memo.stack, content, hk, Ne.symm hk] using ih.2 k
  | @ended l key ending _ _ htop ih =>
    obtain ⟨rest, hrest⟩ : ∃ rest, Memo.stack l = key :: rest := by
      cases hl : Memo.stack l with
      | nil => simp [hl] at htop
      | cons top rest => exact ⟨rest, by simpa [hl] using htop⟩
    rw [hrest, List.nodup_cons] at ih
    refine ⟨by simpa [Memo.stack, hrest] using ih.1.2, fun k => ?_⟩
    by_cases hk : key = k
    · subst hk
      simp [Memo.stack, content, hrest, ih.1.1, slot_ne_computing]
    · simpa [Memo.stack, content, hrest, hk, Ne.symm hk] using ih.2 k

theorem Legal.computing_top (h : Legal c l) (htop : (Memo.stack l).head? = some key) :
    content key l = .computing :=
  (h.stack.2 key).mp (List.mem_of_mem_head? htop)

/-- What can follow a request: an answer from the slot or, if it is idle, a computation. -/
theorem Legal.after_asked (h : Legal c (x :: .asked key :: l)) :
    (x = .started key ∧ content key l = .idle) ∨
      ∃ e, x = .answered key e ∧ (content key l).answer? c key = some e := by
  cases h with
  | started _ hidle => exact .inl ⟨rfl, hidle⟩
  | answered _ hanswer => exact .inr ⟨_, rfl, hanswer⟩
  | peeked _ hp | asked _ hp | ended _ hp _ => cases hp

omit [DecidableEq κ] in
theorem answer?_slot (ho : e.isOutcome = true) : e.slot.answer? c key = some e := by
  cases e with
  | value | error => rfl
  | broken => cases ho

theorem slot_inj {e' : Ending π ε α} (ho : e.isOutcome = true) (h : e'.slot = e.slot) : e' = e := by
  cases e with
  | value | error => cases e' <;> cases h <;> rfl
  | broken => cases ho

theorem Legal.keeps_step (h : Legal c (x :: l)) (ho : e.isOutcome = true)
    (hslot : content key l = e.slot) :
    content key (x :: l) = e.slot ∧ x ≠ .started key ∧ ∀ e', x = .answered key e' → e' = e := by
  cases h with
  | peeked | asked => exact ⟨hslot, by simp⟩
  | @started l k _ hidle =>
    have hk : k ≠ key := by
      rintro rfl
      simp only [content, hidle] at hslot
      rw [slot_eq_idle.mp hslot.symm] at ho
      cases ho
    exact ⟨by simpa [content, hk] using hslot, by simpa using hk, by simp⟩
  | @ended _ k ending hl _ htop =>
    have hk : k ≠ key := by
      rintro rfl
      exact slot_ne_computing (hslot.symm.trans (hl.computing_top htop))
    exact ⟨by simpa [content, hk] using hslot, by simp⟩
  | answered _ hanswer =>
    refine ⟨hslot, by simp, ?_⟩
    rintro _ ⟨⟩
    simp only [content] at hslot
    rw [hslot, answer?_slot ho] at hanswer
    exact (Option.some.inj hanswer).symm
  | handed =>
    refine ⟨hslot, by simp, ?_⟩
    rintro _ ⟨⟩
    exact slot_inj ho (by simpa [content] using hslot)

/-- A field that has an outcome keeps it: it is not computed again, and each answer is this
outcome. -/
theorem Legal.keeps (h : Legal c (later ++ earlier)) (ho : e.isOutcome = true)
    (hslot : content key earlier = e.slot) :
    content key (later ++ earlier) = e.slot ∧ .started key ∉ later ∧
      ∀ e', .answered key e' ∈ later → e' = e := by
  induction later with
  | nil => simpa using hslot
  | cons x later ih =>
    obtain ⟨hcontent, hstarted, hanswered⟩ := ih h.tail
    obtain ⟨hcontent', hx, hx'⟩ := Legal.keeps_step h ho hcontent
    refine ⟨hcontent', by simp [hstarted, Ne.symm hx], fun e' he' => ?_⟩
    rcases List.mem_cons.mp he' with he' | he'
    · exact hx' e' he'.symm
    · exact hanswered e' he'

theorem ended_of_content (ho : e.isOutcome = true) (h : content key l = e.slot) :
    .ended key e ∈ l := by
  induction l with
  | nil => simp [slot_eq_idle.mp h.symm] at ho
  | cons x l ih =>
    cases x with
    | peeked | asked | answered => exact List.mem_cons_of_mem _ (ih h)
    | started k =>
      by_cases hk : k = key
      · exact absurd (by simpa [content, hk] using h.symm) slot_ne_computing
      · exact List.mem_cons_of_mem _ (ih (by simpa [content, hk] using h))
    | ended k ending =>
      by_cases hk : k = key
      · obtain rfl := slot_inj ho (by simpa [content, hk] using h)
        simp [hk]
      · exact List.mem_cons_of_mem _ (ih (by simpa [content, hk] using h))

theorem Legal.content_eq_iff (h : Legal c l) (ho : e.isOutcome = true) :
    content key l = e.slot ↔ .ended key e ∈ l := by
  refine ⟨ended_of_content ho, fun hmem => ?_⟩
  obtain ⟨later, earlier, rfl⟩ := List.mem_iff_append.mp hmem
  exact (h.keeps ho (by simp [content])).1

theorem Legal.settles_iff (h : Legal c l) (key : κ) :
    l.any (·.settles key) = true ↔ ∃ e : Ending π ε α, e.isOutcome = true ∧ content key l = e.slot := by
  have hsettles (x : Step κ π ε α) :
      x.settles key = true ↔ ∃ e, e.isOutcome = true ∧ x = .ended key e := by
    cases x with
    | ended k ending =>
      simp only [Step.settles, Bool.and_eq_true, decide_eq_true_eq, Step.ended.injEq]
      grind
    | _ => simp [Step.settles]
  simp only [List.any_eq_true, hsettles]
  constructor
  · rintro ⟨_, hmem, e, ho, rfl⟩
    exact ⟨e, ho, (h.content_eq_iff ho).mpr hmem⟩
  · rintro ⟨e, ho, hcontent⟩
    exact ⟨_, (h.content_eq_iff ho).mp hcontent, e, ho, rfl⟩

theorem Legal.idle_iff (h : Legal c l) (key : κ) :
    content key l = .idle ↔ key ∉ Memo.stack l ∧ l.any (·.settles key) = false := by
  rw [h.stack.2 key, ← Bool.not_eq_true, h.settles_iff key]
  rcases content key l with _ | _ | (e | a)
  · simp [eq_comm (a := Slot.idle), slot_eq_idle]
  · simp
  · simpa using ⟨.error e, rfl, rfl⟩
  · simpa using ⟨.value a, rfl, rfl⟩

/-- Each computation of a field but the last was broken off, and the last one too if the slot is
idle again. -/
theorem Legal.countP_starts (h : Legal c l) (key : κ) :
    l.countP (·.starts key) =
      l.countP (·.breaks key) + match content key l with | .idle => 0 | _ => 1 := by
  induction h with
  | nil => rfl
  | peeked _ _ ih | asked _ _ ih | answered _ _ ih | handed _ ih =>
    simpa [Step.starts, Step.breaks, content] using ih
  | @started l k _ hidle ih =>
    by_cases hk : k = key
    · subst hk
      simp_all [Step.starts, Step.breaks, content]
    · simpa [Step.starts, Step.breaks, content, hk] using ih
  | @ended l k ending hl _ htop ih =>
    by_cases hk : k = key
    · subst hk
      rw [hl.computing_top htop] at ih
      cases ending <;> simpa [Step.starts, Step.breaks, content, Ending.slot] using ih
    · cases ending <;> simpa [Step.starts, Step.breaks, content, hk] using ih

theorem Legal.once (h : Legal c l) : Once c l where
  keeps := by
    rintro later key e earlier rfl ho
    exact (h.keeps ho (by simp [content])).2
  cyclic := by
    rintro later x key earlier rfl
    have hlegal := h.suffix.tail.tail
    have hended (e : ε) : content key earlier = .computed (.error e) ↔ .ended key (.error e) ∈ earlier :=
      hlegal.content_eq_iff (e := .error e) rfl
    simp only [← hended, hlegal.stack.2 key]
    rcases h.suffix.after_asked with ⟨rfl, hidle⟩ | ⟨e, rfl, hanswer⟩
    · simp [hidle]
    · generalize content key earlier = slot at hanswer
      rcases slot with _ | _ | (e' | a) <;> cases hanswer
      · simp [c.isCyclic_error]
      · simp [and_comm]
      · simp
  computes := by
    rintro later x key earlier rfl
    rw [← h.suffix.tail.tail.idle_iff key]
    rcases h.suffix.after_asked with ⟨rfl, hidle⟩ | ⟨e, rfl, hanswer⟩
    · simp [hidle]
    · simp only [reduceCtorEq, false_iff]
      rintro hidle
      rw [hidle] at hanswer
      cases hanswer
  runs := by
    rintro later earlier rfl key
    have hlegal := h.suffix
    rw [hlegal.countP_starts key]
    have hidle := hlegal.idle_iff key
    by_cases hc : content key earlier = .idle
    · obtain ⟨hstack, hsettled⟩ := hidle.mp hc
      simp [hc, hstack, hsettled]
    · have hbusy : key ∈ Memo.stack earlier ∨ earlier.any (·.settles key) = true := by
        refine Decidable.byContradiction fun hnot => ?_
        rw [not_or, Bool.not_eq_true] at hnot
        exact hc (hidle.mpr hnot)
      rw [if_pos hbusy]
      split <;> simp_all

end Steps

/-! ## Waits -/

namespace Waits

variable [DecidableEq κ] {w : Waits κ η} {key k : κ} {holder : η}

theorem owner?_disown : (w.disown key).owner? k = if k = key then none else w.owner? k := by
  simp only [owner?, disown, List.find?_filter]
  split
  · next hk =>
    subst hk
    simp
  · next hk =>
    congr 2
    funext entry
    by_cases he : entry.1 = k <;> simp [he, hk]

theorem owner?_own :
    (w.own key holder).owner? k = if k = key then some holder else w.owner? k := by
  have hrest : (w.disown key).owner? k = _ := owner?_disown
  simp only [owner?] at hrest
  simp only [owner?, own, List.find?_cons, eq_comm (a := key)]
  split <;> simp_all

variable [DecidableEq η]

theorem blockOn_of_owner? (h : w.owner? key = some holder) : w.blockOn holder key = none := by
  obtain ⟨n, hn⟩ : ∃ n, w.owner.length = n + 1 := by
    refine Nat.exists_eq_succ_of_ne_zero fun hzero => ?_
    rw [owner?, List.length_eq_zero_iff.mp hzero] at h
    cases h
  have hmem : holder ∈ w.chain w.owner.length key := by
    rw [hn, chain, h]
    dsimp only
    split <;> simp
  rw [blockOn, if_pos hmem]

end Waits

/-! ## Runs -/

section Runs

/-- A holder comes to a result. -/
def Returns (m : HolderM κ η π ε α β) (s : Ledger κ η π ε α) (Q : β → Ledger κ η π ε α → Prop) : Prop :=
  ∃ a t, m.run.run s = (some a, t) ∧ Q a t

variable {γ : Type} {m : HolderM κ η π ε α β} {f : β → HolderM κ η π ε α γ} {s : Ledger κ η π ε α}
  {Q : γ → Ledger κ η π ε α → Prop}

theorem returns_pure {a : γ} (h : Q a s) : Returns (pure a) s Q := ⟨a, s, rfl, h⟩

theorem returns_get {Q : Ledger κ η π ε α → Ledger κ η π ε α → Prop} (h : Q s s) :
    Returns get s Q := ⟨s, s, rfl, h⟩

theorem returns_modify {g : Ledger κ η π ε α → Ledger κ η π ε α}
    {Q : PUnit → Ledger κ η π ε α → Prop} (h : Q ⟨⟩ (g s)) : Returns (modify g) s Q :=
  ⟨⟨⟩, g s, rfl, h⟩

theorem Returns.bind (h : Returns m s fun a t => Returns (f a) t Q) : Returns (m >>= f) s Q := by
  obtain ⟨a, t, hm, b, u, hf, hq⟩ := h
  refine ⟨b, u, ?_, hq⟩
  rw [OptionT.run_bind, Option.elimM, StateT.run_bind, hm]
  exact hf

variable [DecidableEq κ] [DecidableEq η] {c : CycleError κ ε} {holder : η} {key : κ}
  {compute : HolderM κ η π ε α (Ending π ε α)} {Q : Ending π ε α → Ledger κ η π ε α → Prop}
  {e : Ending π ε α}

theorem returns_request_answer (hanswer : (s.slots.slot key).answer? c key = some e)
    (howner : s.slots.slot key = .computing → s.waits.owner? key = some holder) (h : Q e s) :
    Returns (request c holder key compute) s Q := by
  refine .bind (returns_get ?_)
  simp only [Ledger.place]
  rcases hslot : s.slots.slot key with _ | _ | (_ | _) <;> rw [hslot] at hanswer <;> cases hanswer
  · refine .bind (returns_get ?_)
    rw [Waits.blockOn_of_owner? (howner hslot)]
    exact returns_pure h
  · exact returns_pure h
  · exact returns_pure h

theorem returns_request_idle (hidle : s.slots.slot key = .idle)
    (h : Returns compute
      { s with slots := s.slots.put key .computing, waits := s.waits.own key holder } fun e t =>
        Q e { t with slots := t.slots.put key e.slot, waits := t.waits.disown key }) :
    Returns (request c holder key compute) s Q := by
  refine .bind (returns_get ?_)
  simp only [Ledger.place, hidle]
  refine .bind (returns_modify (.bind (.bind (returns_modify (.bind ?_)))))
  obtain ⟨e, t, hrun, hq⟩ := h
  exact ⟨e, t, hrun, .bind (returns_modify (returns_pure (.bind (returns_modify (returns_pure hq)))))⟩

/-- The slots and the owners are as the steps tell, and nobody waits. -/
structure Inv (c : CycleError κ ε) (holder : η) (s : Ledger κ η π ε α) : Prop where
  legal : Legal c s.steps
  slot : ∀ key, s.slots.slot key = content key s.steps
  owner : ∀ key, s.waits.owner? key = if key ∈ stack s.steps then some holder else none
  waitOn : s.waits.waitOn = []

omit [DecidableEq η] in
theorem Inv.note {x : Step κ π ε α} (h : Inv c holder s) (hx : Legal c (x :: s.steps))
    (hcontent : ∀ key, content key (x :: s.steps) = content key s.steps)
    (hstack : stack (x :: s.steps) = stack s.steps) :
    Inv c holder { s with steps := x :: s.steps } where
  legal := hx
  slot key := (h.slot key).trans (hcontent key).symm
  owner key := by
    rw [hstack]
    exact h.owner key
  waitOn := h.waitOn

omit [DecidableEq η] in
theorem Inv.start (h : Inv c holder s) (hasked : s.steps.head? = some (.asked key))
    (hidle : s.slots.slot key = .idle) :
    Inv c holder { s with
      slots := s.slots.put key .computing
      waits := s.waits.own key holder
      steps := .started key :: s.steps } where
  legal := by
    obtain ⟨l, hl⟩ : ∃ l, s.steps = .asked key :: l := List.head?_eq_some_iff.mp hasked
    have hcontent := (h.slot key).symm.trans hidle
    have hlegal := h.legal
    rw [hl] at hcontent hlegal
    rw [hl]
    exact .started hlegal hcontent
  slot k := by
    by_cases hk : key = k
    · subst hk
      simp [content]
    · rw [Slots.slot_put_of_ne _ _ (Ne.symm hk), h.slot k, content, if_neg hk]
  owner k := by
    rw [Waits.owner?_own, h.owner k]
    by_cases hk : k = key <;> simp [stack, hk]
  waitOn := h.waitOn

omit [DecidableEq η] in
theorem Inv.finish (h : Inv c holder s) (hlegal : Legal c (.ended key e :: s.steps)) :
    Inv c holder { s with
      slots := s.slots.put key e.slot
      waits := s.waits.disown key
      steps := .ended key e :: s.steps } where
  legal := hlegal
  slot k := by
    by_cases hk : key = k
    · subst hk
      simp [content]
    · rw [Slots.slot_put_of_ne _ _ (Ne.symm hk), h.slot k, content, if_neg hk]
  owner k := by
    have hstack := hlegal.stack.2 k
    rw [Waits.owner?_disown, h.owner k]
    by_cases hk : k = key
    · subst hk
      have hnot : k ∉ stack (.ended k e :: s.steps) := by
        rw [hstack, content, if_pos rfl]
        exact slot_ne_computing
      rw [if_pos rfl, if_neg hnot]
    · have hsame : k ∈ stack (.ended key e :: s.steps) ↔ k ∈ stack s.steps := by
        rw [hstack, content, if_neg (Ne.symm hk), h.legal.stack.2 k]
      simp only [hsame, hk, if_false]
  waitOn := h.waitOn

/-- After a whole program the stack is as before. By induction on the program: each request is
answered at once or runs its computation, which leaves its own field on top of the stack. -/
theorem returns_run (c : CycleError κ ε) (holder : η) (p : Program κ π ε α)
    {s : Ledger κ η π ε α} (hi : Inv c holder s) (hp : isPending s.steps = false) :
    Returns (p.run c holder) s fun _ t =>
      Inv c holder t ∧ isPending t.steps = false ∧ stack t.steps = stack s.steps := by
  induction p generalizing s with
  | done ending => exact returns_pure ⟨hi, hp, rfl⟩
  | peek key next ih =>
    refine .bind (returns_get (.bind (returns_modify ?_)))
    exact ih _ (hi.note (.peeked hi.legal hp) (fun _ => rfl) rfl) rfl
  | ask key computation next ihc ihn =>
    have hasked : Inv c holder { s with steps := .asked key :: s.steps } :=
      hi.note (.asked hi.legal hp) (fun _ => rfl) rfl
    refine .bind (returns_modify (.bind ?_))
    cases hanswer : ((s.slots.slot key).answer? c key : Option (Ending π ε α)) with
    | some e =>
      have hlegal : Legal c (.answered key e :: .asked key :: s.steps) :=
        .answered hasked.legal (hi.slot key ▸ hanswer)
      refine returns_request_answer hanswer (fun hslot => ?_) ?_
      · have hmem : key ∈ stack s.steps := (hi.legal.stack.2 key).mpr (hi.slot key ▸ hslot)
        exact (hi.owner key).trans (if_pos hmem)
      · exact .bind (returns_modify (ihn e (hasked.note hlegal (fun _ => rfl) rfl) rfl))
    | none =>
      have hidle : s.slots.slot key = .idle := by
        rcases hslot : s.slots.slot key with _ | _ | (_ | _) <;> simp_all [Slot.answer?]
      refine returns_request_idle hidle (.bind (returns_modify ?_))
      obtain ⟨e, t, hrun, ht, hpt, hstack⟩ := ihc (hasked.start rfl hidle) rfl
      refine .bind ⟨e, t, hrun, .bind (returns_modify (returns_pure ?_))⟩
      have hended : Legal c (.ended key e :: t.steps) := .ended ht.legal hpt (by rw [hstack]; rfl)
      have hhanded := (ht.finish hended).note (.handed hended) (fun _ => rfl) rfl
      obtain ⟨e', u, hrun', hu, hpu, hstack'⟩ := ihn e hhanded rfl
      refine .bind (returns_modify ⟨e', u, hrun', hu, hpu, ?_⟩)
      rw [hstack']
      simp [stack, hstack]

/-- One holder computes each field once, whatever its computations ask for and however they end. It
never waits, and when it is done no field is being computed and it owns none. -/
theorem requests_once (c : CycleError κ ε) (holder : η) (p : Program κ π ε α) :
    ∃ ending s, (p.run c holder).run.run {} = (some ending, s) ∧ Once c s.steps ∧
      ∀ key, s.slots.slot key ≠ .computing ∧ s.waits.owner? key = none := by
  have hstart : Inv c holder ({} : Ledger κ η π ε α) := ⟨.nil, fun _ => rfl, fun _ => rfl, rfl⟩
  obtain ⟨ending, s, hrun, hs, -, hstack⟩ := returns_run c holder p hstart rfl
  refine ⟨ending, s, hrun, hs.legal.once, fun key => ?_⟩
  have hout : key ∉ stack s.steps := by simp [hstack, stack]
  refine ⟨fun hslot => ?_, by rw [hs.owner key, if_neg hout]⟩
  exact hout ((hs.legal.stack.2 key).mpr (hs.slot key ▸ hslot))

end Runs

end Flowgraph.Memo
