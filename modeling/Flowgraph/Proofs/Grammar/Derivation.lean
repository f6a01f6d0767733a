import Flowgraph.Proofs.Grammar.Balance

/-! # Derivations

A pattern matches where its parts do. Alternatives before the right one and repetitions
after the last one cost nothing, where the next token shows that they do not match.
-/

namespace Flowgraph.Grammar

open Surface (Kept Piece build)

/-! ## Patterns that the next token rules out -/

/-- What is known of the next token: its kind, and texts that are not its own. -/
structure Ahead where
  kind : TokenKind
  avoids : String → Bool

structure Ahead.Fits (a : Ahead) (t : Token) : Prop where
  kind : t.kind = a.kind
  text : ∀ s, a.avoids s = true → t.text ≠ s

section

variable (a : Ahead) (known : Rule → Bool)

mutual

/-- No text that matches starts with the next token. -/
def Pattern.rejects : Pattern → Bool
  | .literal text => a.avoids text
  | .token kind => kind ≠ a.kind
  | .rule r => known r
  | .keep _ body => body.rejects
  | .seq parts => Pattern.rejectsSeq parts
  | .choice alternatives => Pattern.rejectsAll alternatives
  | .group .once body => body.rejects
  | .group .. => false

/-- The pattern can be left out, and is before the next token. -/
def Pattern.passes : Pattern → Bool
  | .group .optional body | .group .many body => body.rejects
  | _ => false

def Pattern.rejectsSeq : List Pattern → Bool
  | [] => false
  | p :: ps => p.rejects || p.passes && Pattern.rejectsSeq ps

def Pattern.rejectsAll : List Pattern → Bool
  | [] => true
  | p :: ps => p.rejects && Pattern.rejectsAll ps

end

/-- The next token rules out a rule, as rules up to a depth inside one another show. -/
def Rule.rejects : (depth : Nat) → Rule → Bool
  | 0, _ => false
  | depth + 1, r => r.pattern.rejects a (Rule.rejects depth)

end

/-- No token is gone between the two. -/
structure SamePlace (c c' : Cursor) : Prop where
  rest : c'.rest = c.rest
  consumed : c'.consumed = c.consumed

namespace SamePlace

variable {c c' c'' branch : Cursor}

theorem trans (h : SamePlace c c') (h' : SamePlace c' c'') : SamePlace c c'' :=
  ⟨h'.rest.trans h.rest, h'.consumed.trans h.consumed⟩

theorem next (h : SamePlace c c') : c'.next = c.next := congrArg (·.headD default) h.rest

theorem remember (c : Cursor) (e : MatchError) : SamePlace c (c.remember e) := by
  unfold Cursor.remember
  split <;> exact ⟨rfl, rfl⟩

theorem accept (h : SamePlace c branch) : SamePlace c (c.accept branch) := by
  unfold Cursor.accept
  split <;> exact ⟨h.rest, h.consumed⟩

/-- A branch that fails at once is not final. -/
theorem stop (h : SamePlace c branch) (e : MatchError) :
    ∃ c', c.stop e branch = (false, c') ∧ SamePlace c c' := by
  refine ⟨_, if_neg (by rw [h.consumed]; omega), ?_⟩
  split
  · exact ⟨rfl, rfl⟩
  · split <;> exact ⟨rfl, rfl⟩

end SamePlace

/-- There is no match, and no token is gone. -/
inductive Missed (c : Cursor) : Outcome × Cursor → Prop
  | noMatch {c' : Cursor} : SamePlace c c' → Missed c (.noMatch, c')
  | error {e : MatchError} {c' : Cursor} : SamePlace c c' → Missed c (.error e, c')

theorem SamePlace.missed {c c' : Cursor} {result : Outcome × Cursor} (h : SamePlace c c')
    (h' : Missed c' result) : Missed c result := by
  cases h' with
  | noMatch h' => exact .noMatch (h.trans h')
  | error h' => exact .error (h.trans h')

/-- Repetition ends where its body does not match. -/
theorem repeatMatch_missed {step : Cursor → Outcome × Cursor} (limit count : Nat) (kept : Kept)
    {c : Cursor} (h : Missed c (step c)) :
    ∃ c', repeatMatch step false (limit + 1) c kept count = (.matched kept, c') ∧
      SamePlace c c' := by
  rw [repeatMatch]
  generalize step c = result at h
  cases h with
  | noMatch h => exact ⟨_, rfl, h.accept⟩
  | @error e branch h =>
    have hremember := SamePlace.remember c e
    have hbranch : SamePlace (c.remember e) branch :=
      ⟨h.rest.trans hremember.rest.symm, h.consumed.trans hremember.consumed.symm⟩
    obtain ⟨c', hstop, h'⟩ := hbranch.stop e
    simp only [hstop]
    exact ⟨c', rfl, hremember.trans h'⟩

abbrev CallRule := Rule → Cursor → Except MatchError (Option Piece) × Cursor

/-- The rules that are known to be ruled out do not match. -/
def Misses (a : Ahead) (known : Rule → Bool) (callRule : CallRule) : Prop :=
  ∀ r slot c, known r = true → a.Fits c.next → Missed c ((Pattern.rule r).run callRule slot c)

section

variable {a : Ahead} {known : Rule → Bool} {callRule : CallRule}

mutual

theorem missed_run (hr : Misses a known callRule) (slot : Option Slot) :
    ∀ (p : Pattern) (c : Cursor), a.Fits c.next → p.rejects a known = true →
      Missed c (p.run callRule slot c)
  | .literal text, c, hc, h => by
    rw [Pattern.run, if_neg (by simp [hc.text text h])]
    exact .noMatch ⟨rfl, rfl⟩
  | .token kind, c, hc, h => by
    rw [Pattern.run, hc.kind, if_neg (of_decide_eq_true h).symm]
    exact .noMatch ⟨rfl, rfl⟩
  | .rule r, c, hc, h => hr r slot c h hc
  | .keep s body, c, hc, h => missed_run hr (some s) body c hc h
  | .seq parts, c, hc, h => missed_runSeq hr slot true parts c hc h
  | .choice alternatives, c, hc, h => missed_runChoice hr slot alternatives none c hc h
  | .group .once body, c, hc, h => missed_run hr slot body c hc h
  | .group .optional _, _, _, h | .group .many _, _, _, h | .group .some _, _, _, h =>
    absurd h Bool.false_ne_true

theorem passes_run (hr : Misses a known callRule) (slot : Option Slot) :
    ∀ (p : Pattern) (c : Cursor), a.Fits c.next → p.passes a known = true →
      ∃ c', p.run callRule slot c = (.matched [], c') ∧ SamePlace c c'
  | .group .optional body, c, hc, h => repeatMatch_missed _ _ _ (missed_run hr slot body c hc h)
  | .group .many body, c, hc, h => repeatMatch_missed _ _ _ (missed_run hr slot body c hc h)
  | .literal _, _, _, h | .token _, _, _, h | .rule _, _, _, h | .keep .., _, _, h | .seq _, _, _, h
  | .choice _, _, _, h | .group .once _, _, _, h | .group .some _, _, _, h =>
    absurd h Bool.false_ne_true

theorem missed_runSeq (hr : Misses a known callRule) (slot : Option Slot) (first : Bool) :
    ∀ (ps : List Pattern) (c : Cursor), a.Fits c.next → Pattern.rejectsSeq a known ps = true →
      Missed c (Pattern.runSeq callRule slot first ps c)
  | [], _, _, h => absurd h Bool.false_ne_true
  | p :: ps, c, hc, h => by
    rw [Pattern.runSeq]
    simp only [Pattern.rejectsSeq, Bool.or_eq_true, Bool.and_eq_true] at h
    rcases h with h | ⟨hp, hps⟩
    · have hmissed := missed_run hr slot p c hc h
      generalize p.run callRule slot c = result at hmissed
      cases hmissed with
      | noMatch hplace => cases first <;> constructor <;> exact hplace
      | error hplace => exact .error hplace
    · obtain ⟨c', hrun, hplace⟩ := passes_run hr slot p c hc hp
      have hmissed := missed_runSeq hr slot false ps c' (hplace.next ▸ hc) hps
      simp only [hrun]
      generalize Pattern.runSeq callRule slot false ps c' = result at hmissed
      cases hmissed with
      | noMatch hplace' => exact .noMatch (hplace.trans hplace')
      | error hplace' => exact .error (hplace.trans hplace')

theorem missed_runChoice (hr : Misses a known callRule) (slot : Option Slot) :
    ∀ (ps : List Pattern) (best : Option (MatchError × Nat)) (c : Cursor), a.Fits c.next →
      Pattern.rejectsAll a known ps = true → Missed c (Pattern.runChoice callRule slot ps best c)
  | [], none, c, _, _ => .noMatch ⟨rfl, rfl⟩
  | [], some (e, _), c, _, _ => .error (SamePlace.remember c e)
  | p :: ps, best, c, hc, h => by
    simp only [Pattern.rejectsAll, Bool.and_eq_true] at h
    have hmissed := missed_run hr slot p c hc h.1
    rw [Pattern.runChoice]
    generalize p.run callRule slot c = result at hmissed
    cases hmissed with
    | noMatch => exact missed_runChoice hr slot ps best c hc h.2
    | @error e branch hplace =>
      obtain ⟨c', hstop, hplace'⟩ := hplace.stop e
      simp only [hstop]
      exact hplace'.missed (missed_runChoice hr slot ps _ c' (hplace'.next ▸ hc) h.2)

end

end

theorem misses_run {a : Ahead} {depth fuel : Nat} (hd : depth ≤ fuel) :
    Misses a (Rule.rejects a depth) (Rule.run fuel) := by
  induction depth generalizing fuel with
  | zero => exact fun _ _ _ h => absurd h Bool.false_ne_true
  | succ depth ih =>
    intro r slot c h hc
    obtain ⟨fuel, rfl⟩ : ∃ k, fuel = k + 1 := ⟨fuel - 1, by omega⟩
    have hmissed := missed_run (ih (Nat.le_of_succ_le_succ hd)) none r.pattern c hc h
    rw [Pattern.run, Rule.run]
    generalize r.pattern.run (Rule.run fuel) none c = result at hmissed
    cases hmissed with
    | noMatch hplace => exact .noMatch hplace
    | @error e c' hplace => exact .error (hplace.trans (.remember c' e))

/-! ## Patterns that match -/

/-- More rules inside one another than it takes to see that a token starts no statement. -/
def sight : Nat := 16

/-- The tokens `ts` start with a text of the pattern, of which `kept` is kept, and go on
with `rest`. No more than `n` rules are inside one another. -/
def Matches (n : Nat) (slot : Option Slot) (p : Pattern) (ts : List Token) (kept : Kept)
    (rest : List Token) : Prop :=
  ∀ fuel, n + sight ≤ fuel → ∀ c, c.rest = ts →
    ∃ c', p.run (Rule.run fuel) slot c = (.matched kept, c') ∧ c'.rest = rest

/-- The tokens `ts` start with a text of the rule, which is `piece`, and go on with `rest`. -/
def Reads (n : Nat) (r : Rule) (ts : List Token) (piece : Piece) (rest : List Token) : Prop :=
  ∃ kept, Matches n none r.pattern ts kept rest ∧ build r (ts.headD default).position kept = .ok piece

/-- Repetition with enough steps adds `kept` to what it has. -/
def Loops (n : Nat) (slot : Option Slot) (p : Pattern) (ts : List Token) (kept : Kept)
    (rest : List Token) : Prop :=
  ∀ fuel, n + sight ≤ fuel → ∀ limit count had c, c.rest = ts → ts.length < limit →
    ∃ c', repeatMatch (p.run (Rule.run fuel) slot) false limit c had count =
      (.matched (had ++ kept), c') ∧ c'.rest = rest

section

variable {m n : Nat} {slot : Option Slot} {p : Pattern} {ps : List Pattern} {t : Token}
  {ts mid rest : List Token} {kept more : Kept} {a : Ahead}

namespace Matches

theorem literal {text : String} (htext : t.text = text) (ht : t.kind ≠ .eof) :
    Matches n slot (.literal text) (t :: ts) (keepUnder slot (.token t)) ts := by
  intro fuel _ c hc
  refine ⟨c.consume, ?_, congrArg List.tail hc⟩
  simp [Pattern.run, Cursor.next, hc, Token.isEof, ht, htext]

theorem operator {text : String} {q : Position} : Matches n slot (.literal text)
    (⟨.operator, text, q⟩ :: ts) (keepUnder slot (.token ⟨.operator, text, q⟩)) ts :=
  literal rfl nofun

theorem keyword {text : String} {q : Position} : Matches n slot (.literal text)
    (⟨.keyword, text, q⟩ :: ts) (keepUnder slot (.token ⟨.keyword, text, q⟩)) ts :=
  literal rfl nofun

theorem token {kind : TokenKind} (ht : t.kind = kind) :
    Matches n slot (.token kind) (t :: ts) (keepUnder slot (.token t)) ts := by
  intro fuel _ c hc
  refine ⟨c.consume, ?_, congrArg List.tail hc⟩
  simp [Pattern.run, Cursor.next, hc, ht]

theorem rule {r : Rule} {piece : Piece} (h : Reads m r ts piece rest) (hm : m < n) :
    Matches n slot (.rule r) ts (keepUnder slot (.piece piece)) rest := by
  obtain ⟨kept, h, hbuild⟩ := h
  intro fuel hn c hc
  obtain ⟨fuel, rfl⟩ : ∃ k, fuel = k + 1 := ⟨fuel - 1, by omega⟩
  obtain ⟨c', hrun, hrest⟩ := h fuel (by omega) c hc
  refine ⟨c', ?_, hrest⟩
  simp only [Pattern.run, Rule.run, hrun, Cursor.next, hc, hbuild]

theorem keep {s : Slot} (h : Matches n (some s) p ts kept rest) :
    Matches n slot (.keep s p) ts kept rest := h

theorem once (h : Matches n slot p ts kept rest) : Matches n slot (.group .once p) ts kept rest := h

theorem nil : Matches n slot (.seq []) ts [] ts := fun _ _ c hc => ⟨c, rfl, hc⟩

/-- Which part of a sequence is the first one matters for failures only. -/
theorem runSeq_of_first {callRule : CallRule} {first : Bool} {c c' : Cursor}
    (h : Pattern.runSeq callRule slot true ps c = (.matched kept, c')) :
    Pattern.runSeq callRule slot first ps c = (.matched kept, c') := by
  cases ps with
  | nil => exact h
  | cons p ps =>
    rw [Pattern.runSeq] at h ⊢
    generalize p.run callRule slot c = result at h ⊢
    obtain ⟨_ | _ | _, _⟩ := result
    · cases h
    · exact h
    · exact h

theorem cons (h : Matches n slot p ts kept mid) (h' : Matches n slot (.seq ps) mid more rest) :
    Matches n slot (.seq (p :: ps)) ts (kept ++ more) rest := by
  intro fuel hn c hc
  obtain ⟨c1, hrun1, hrest1⟩ := h fuel hn c hc
  obtain ⟨c2, hrun2, hrest2⟩ := h' fuel hn c1 hrest1
  refine ⟨c2, ?_, hrest2⟩
  rw [Pattern.run, Pattern.runSeq, hrun1]
  dsimp only
  rw [runSeq_of_first hrun2]

theorem this (h : Matches n slot p ts kept rest) : Matches n slot (.choice (p :: ps)) ts kept rest := by
  intro fuel hn c hc
  obtain ⟨c', hrun, hrest⟩ := h fuel hn c hc
  refine ⟨c.accept c', ?_, rest_accept.trans hrest⟩
  rw [Pattern.run, Pattern.runChoice, hrun]

/-- Which error is the farthest matters for failures only. -/
theorem runChoice_of_best {callRule : CallRule} {best best' : Option (MatchError × Nat)}
    {c c' : Cursor} (h : Pattern.runChoice callRule slot ps best c = (.matched kept, c')) :
    Pattern.runChoice callRule slot ps best' c = (.matched kept, c') := by
  induction ps generalizing best best' c with
  | nil => cases best <;> cases h
  | cons p ps ih =>
    rw [Pattern.runChoice] at h ⊢
    generalize p.run callRule slot c = result at h ⊢
    obtain ⟨_ | _ | e, branch⟩ := result
    · exact ih h
    · exact h
    · dsimp only at h ⊢
      generalize c.stop e branch = stopped at h ⊢
      obtain ⟨_ | _, _⟩ := stopped
      · exact ih h
      · cases h

theorem later (ha : a.Fits (ts.headD default)) (hp : p.rejects a (Rule.rejects a sight) = true)
    (h : Matches n slot (.choice ps) ts kept rest) :
    Matches n slot (.choice (p :: ps)) ts kept rest := by
  intro fuel hn c hc
  have hmissed := missed_run (misses_run (Nat.le_of_add_left_le hn)) slot p c
    (by rwa [Cursor.next, hc]) hp
  rw [Pattern.run, Pattern.runChoice]
  generalize p.run (Rule.run fuel) slot c = result at hmissed
  cases hmissed with
  | noMatch => exact h fuel hn c hc
  | @error e branch hplace =>
    obtain ⟨c1, hstop, hplace'⟩ := hplace.stop e
    obtain ⟨c', hrun, hrest⟩ := h fuel hn c1 (hplace'.rest.trans hc)
    simp only [hstop]
    exact ⟨c', runChoice_of_best hrun, hrest⟩

/-- An alternative is taken if all before it are ruled out. -/
theorem choose (i : Nat) (hi : ps[i]? = some p) (ha : a.Fits (ts.headD default))
    (hps : Pattern.rejectsAll a (Rule.rejects a sight) (ps.take i) = true)
    (h : Matches n slot p ts kept rest) : Matches n slot (.choice ps) ts kept rest := by
  induction ps generalizing i with
  | nil => cases hi
  | cons q ps ih =>
    cases i with
    | zero =>
      obtain rfl : q = p := by simpa using hi
      exact this h
    | succ i =>
      simp only [List.take_succ_cons, Pattern.rejectsAll, Bool.and_eq_true] at hps
      exact later ha hps.1 (ih i (by simpa using hi) hps.2)

theorem optional (h : Matches n slot p ts kept rest) :
    Matches n slot (.group .optional p) ts kept rest := by
  intro fuel hn c hc
  obtain ⟨c', hrun, hrest⟩ := h fuel hn c hc
  refine ⟨c.accept c', ?_, rest_accept.trans hrest⟩
  simp only [Pattern.run, repeatMatch, hrun, List.nil_append]

theorem skip (ha : a.Fits (ts.headD default)) (hp : p.passes a (Rule.rejects a sight) = true) :
    Matches n slot p ts [] ts := by
  intro fuel hn c hc
  obtain ⟨c', hrun, hplace⟩ := passes_run (misses_run (Nat.le_of_add_left_le hn)) slot p c
    (by rwa [Cursor.next, hc]) hp
  exact ⟨c', hrun, hplace.rest.trans hc⟩

theorem many (h : Loops n slot p ts kept rest) : Matches n slot (.group .many p) ts kept rest :=
  fun fuel hn c hc => h fuel hn _ 0 [] c hc (by rw [hc]; omega)

end Matches

namespace Loops

theorem nil (ha : a.Fits (ts.headD default)) (hp : p.rejects a (Rule.rejects a sight) = true) :
    Loops n slot p ts [] ts := by
  intro fuel hn limit count had c hc hlimit
  obtain ⟨limit, rfl⟩ : ∃ k, limit = k + 1 := ⟨limit - 1, by omega⟩
  have hmissed := missed_run (misses_run (Nat.le_of_add_left_le hn)) slot p c
    (by rwa [Cursor.next, hc]) hp
  obtain ⟨c', hrun, hplace⟩ := repeatMatch_missed limit count had hmissed
  exact ⟨c', by rw [hrun, List.append_nil], hplace.rest.trans hc⟩

theorem cons (h : Matches n slot p ts kept mid) (hmid : mid.length < ts.length)
    (h' : Loops n slot p mid more rest) : Loops n slot p ts (kept ++ more) rest := by
  intro fuel hn limit count had c hc hlimit
  obtain ⟨limit, rfl⟩ : ∃ k, limit = k + 1 := ⟨limit - 1, by omega⟩
  obtain ⟨c', hrun, hrest⟩ := h fuel hn c hc
  rw [repeatMatch, hrun, ← List.append_assoc]
  exact h' fuel hn limit (count + 1) (had ++ kept) _ (rest_accept.trans hrest) (by omega)

end Loops

end

end Flowgraph.Grammar
