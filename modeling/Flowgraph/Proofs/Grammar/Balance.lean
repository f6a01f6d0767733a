import Flowgraph.Proofs.Token.Modes

/-! # Accepted texts are balanced

A pattern shows by its form which brackets it leaves open and which modes are open
behind it. Matching keeps to that, as long as it follows the modes of the text. It
may lose them: a literal brace inside an interpolation takes the token that ends the
interpolation. From there on only plain characters can match, so that the
interpolation is never completed.
-/

namespace Flowgraph.Grammar

open Lexer
open Session (balance bracketDelta stringDelta)

/-- Whether the tokens of a kind, brackets apart, are read where `mode` is open. -/
def readIn (mode : Mode) : TokenKind → Bool
  | .escaped | .stringEnd | .interpolationStart | .chars => mode = .string
  | .interpolationEnd => mode = .interpolation
  | .eof | .operator => false
  | _ => mode ≠ .string

/-- The modes that are open around a rule. -/
def around : Rule → List Mode
  | .stringPart => [.string]
  | _ => []

mutual

/-- The modes that are open behind a pattern and the brackets it opens. The modes `s`
are open before it. -/
def Pattern.effect (s : List Mode) : Pattern → Option (List Mode × Int)
  | .literal text => if top s ≠ .string ∧ !isMark text then some (s, bracket text) else none
  | .token kind => if readIn (top s) kind then some (kind.shift.apply s, 0) else none
  | .rule r =>
    let outer := s.drop (around r).length
    if around r ++ outer = s ∧ top outer ≠ .string then some (s, 0) else none
  | .keep _ body => body.effect s
  | .seq parts => Pattern.effectSeq s parts
  | .choice alternatives => if Pattern.isNeutral s alternatives then some (s, 0) else none
  | .group .once body => body.effect s
  | .group _ body => if body.effect s = some (s, 0) then some (s, 0) else none

def Pattern.effectSeq (s : List Mode) : List Pattern → Option (List Mode × Int)
  | [] => some (s, 0)
  | p :: ps => do
    let (s1, n) ← p.effect s
    let (s2, m) ← Pattern.effectSeq s1 ps
    return (s2, n + m)

def Pattern.isNeutral (s : List Mode) : List Pattern → Bool
  | [] => true
  | p :: ps => p.effect s = some (s, 0) && Pattern.isNeutral s ps

end

/-- No rule of the grammar leaves anything open. -/
theorem effect_pattern (r : Rule) : r.pattern.effect (around r) = some (around r, 0) := by
  cases r <;> rfl

/-! ## Following the modes -/

/-- Matching has come to `ts`, where `s` are the modes opened since the modes `base` and
`n` is the balance of the brackets to come; or it has lost the modes. -/
inductive Tracks (total : Int) : Option (List Mode) → List Mode → Int → List Token → Prop
  | follows {base s : List Mode} {n : Int} {ts : List Token} : top base ≠ .string →
      Stands total (s ++ base) ts → balance bracketDelta ts = n → Tracks total (some base) s n ts
  | lost {base : Option (List Mode)} {modes s : List Mode} {n : Int} {ts : List Token} :
      top s ≠ .string → (∀ b ∈ base, top (s ++ b) = .interpolation) → top modes = .string →
      Stands total modes ts → Tracks total base s n ts

section Leaves

variable {total n : Int} {base : Option (List Mode)} {s : List Mode} {t : Token} {ts ts' : List Token}

theorem top_append {s base : List Mode} (hs : top s ≠ .string) (hb : top base ≠ .string) :
    top (s ++ base) ≠ .string := by
  cases s with
  | nil => exact hb
  | cons => exact hs

theorem Tracks.literal (h : Tracks total base s n (t :: ts)) (hs : top s ≠ .string)
    (ht : t.kind ≠ .eof) (hm : isMark t.text = false) :
    Tracks total base s (n - bracket t.text) ts := by
  obtain ⟨kind, text, p⟩ := t
  cases h with
  | @follows base _ _ _ hb h hn =>
    obtain ⟨hf, h'⟩ := h.next ht
    have htop := top_append hs hb
    simp only at hf h' hm
    generalize hμ : top (s ++ base) = mode at hf htop
    cases hf with
    | chars | escaped | unquote | opening => exact absurd rfl htop
    | quote => simp [isMark] at hm
    | close =>
      obtain ⟨rest, hr⟩ := eq_cons_of_top hμ (by decide)
      rw [hr] at h h'
      refine .lost hs ?_ ((h.nested _ _ (List.suffix_refl _)).mpr rfl) h'
      simpa using hμ
    | code _ hk hb' =>
      rw [hk] at h'
      refine .follows hb h' ?_
      rw [← hn, balance, bracketDelta_eq hb']
      omega
  | lost _ hi hm' h =>
    obtain ⟨hf, h'⟩ := h.next ht
    rw [hm'] at hf
    simp only at hf h' hm
    cases hf with
    | chars => exact .lost hs hi hm' h'
    | escaped he => simp [he] at hm
    | unquote | opening | quote => simp [isMark] at hm
    | code hne => exact absurd rfl hne

theorem shift_append {kind : TokenKind} {base : List Mode} (hk : readIn (top s) kind) :
    kind.shift.apply (s ++ base) = kind.shift.apply s ++ base := by
  cases s <;> cases kind <;> simp_all [readIn, TokenKind.shift, Shift.apply]

theorem Tracks.token (h : Tracks total base s n (t :: ts)) (hk : readIn (top s) t.kind) :
    Tracks total base (t.kind.shift.apply s) n ts := by
  obtain ⟨kind, text, p⟩ := t
  have ht : kind ≠ .eof := fun h => by simp [h, readIn] at hk
  cases h with
  | @follows base _ _ _ hb h hn =>
    refine .follows hb (shift_append hk ▸ (h.next ht).2) ?_
    have : bracketDelta ⟨kind, text, p⟩ = 0 := by cases kind <;> simp_all [readIn, bracketDelta]
    rw [← hn, balance, this, Int.zero_add]
  | lost hs _ hm h =>
    have hf := (h.next ht).1
    rw [hm] at hf
    cases hf <;> simp_all [readIn]

theorem Tracks.inside {outer : List Mode} {r : Rule} (ho : top outer ≠ .string)
    (h : Tracks total base (around r ++ outer) n ts)
    (hr : ∀ base, Tracks total base (around r) n ts → Tracks total base (around r) n ts') :
    Tracks total base (around r ++ outer) n ts' := by
  cases h with
  | @follows base _ _ _ hb h hn =>
    rw [List.append_assoc] at h
    cases hr (some (outer ++ base)) (.follows (top_append ho hb) h hn) with
    | follows _ h' hn' => exact .follows hb (by rwa [List.append_assoc]) hn'
    | lost hs hi hm h' => exact .lost (top_append hs ho) (by simpa using hi) hm h'
  | lost hs hi hm h =>
    have hs' : top (around r) ≠ .string := by
      cases hr : around r <;> simp_all
    cases hr none (.lost hs' nofun hm h) with
    | lost _ _ hm' h' => exact .lost hs hi hm' h'

end Leaves

/-! ## Matching -/

/-- Between two places the modes `s` become `s'` and `n` brackets open. -/
def Leads (s s' : List Mode) (n : Int) (ts ts' : List Token) : Prop :=
  ∀ total base m, Tracks total base s m ts → Tracks total base s' (m - n) ts'

theorem Leads.refl {s : List Mode} {ts : List Token} : Leads s s 0 ts ts := by
  simp [Leads]

theorem Leads.trans {s0 s1 s2 : List Mode} {n m : Int} {ts0 ts1 ts2 : List Token}
    (h : Leads s0 s1 n ts0 ts1) (h' : Leads s1 s2 m ts1 ts2) : Leads s0 s2 (n + m) ts0 ts2 := by
  intro total base b hb
  rw [← Int.sub_sub]
  exact h' total base _ (h total base b hb)

/-- What a match from `ts` on may give. -/
def Gives (s s' : List Mode) (n : Int) (ts : List Token) : Outcome × Cursor → Prop
  | (.matched _, c) => Leads s s' n ts c.rest
  | (.noMatch, c) => c.rest = ts
  | (.error _, _) => True

@[simp] theorem rest_accept {c branch : Cursor} : (c.accept branch).rest = branch.rest := by
  unfold Cursor.accept
  split <;> rfl

@[simp] theorem rest_remember {c : Cursor} {e : MatchError} : (c.remember e).rest = c.rest := by
  unfold Cursor.remember
  split <;> rfl

theorem rest_stop {c c' branch : Cursor} {e : MatchError} (h : c.stop e branch = (false, c')) :
    c'.rest = c.rest := by
  unfold Cursor.stop at h
  grind

theorem gives_repeatMatch {step : Cursor → Outcome × Cursor} {needed : Bool} {s : List Mode}
    {ts : List Token} (h : ∀ c, Gives s s 0 c.rest (step c)) (limit : Nat) (c : Cursor) (kept : Surface.Kept)
    (count : Nat) (h0 : count = 0 → c.rest = ts) (hl : Leads s s 0 ts c.rest) :
    Gives s s 0 ts (repeatMatch step needed limit c kept count) := by
  induction limit generalizing c kept count with
  | zero => exact hl
  | succ limit ih =>
    have finish (c' : Cursor) (hc : c'.rest = c.rest) : Gives s s 0 ts
        (if needed && count == 0 then (.noMatch, c') else (.matched kept, c')) := by
      split
      · next hn => exact hc.trans (h0 (by simp_all))
      · simpa [Gives, hc] using hl
    have hs := h c
    rw [repeatMatch]
    match hstep : step c with
    | (.error e, branch) =>
      simp only
      match hst : (c.remember e).stop e branch with
      | (true, c') => trivial
      | (false, c') => exact finish c' (by simpa using rest_stop hst)
    | (.noMatch, branch) =>
      rw [hstep] at hs
      exact finish _ (rest_accept.trans hs)
    | (.matched more, branch) =>
      rw [hstep] at hs
      refine ih _ _ _ nofun ?_
      rw [rest_accept]
      exact hl.trans hs

/-- Each rule leaves open what was open before it. -/
def Respects (callRule : Rule → Cursor → Except MatchError (Option Surface.Piece) × Cursor) : Prop :=
  ∀ r c, match callRule r c with
    | (.ok none, c') => c'.rest = c.rest
    | (.ok (some _), c') => Leads (around r) (around r) 0 c.rest c'.rest
    | (.error _, _) => True

section Run

variable {callRule : Rule → Cursor → Except MatchError (Option Surface.Piece) × Cursor}

theorem leads_consume {c : Cursor} {s s' : List Mode} {n : Int} (hc : c.next.kind ≠ .eof)
    (h : ∀ total base m ts, Tracks total base s m (c.next :: ts) → Tracks total base s' (m - n) ts) :
    Leads s s' n c.rest c.consume.rest := by
  obtain ⟨rest⟩ := c
  cases rest with
  | nil => exact absurd rfl hc
  | cons t ts => exact fun total base m => h total base m ts

theorem runSeq_ne_noMatch (slot : Option Slot) (ps : List Pattern) (c : Cursor) :
    (Pattern.runSeq callRule slot false ps c).1 ≠ .noMatch := by
  induction ps generalizing c with
  | nil => nofun
  | cons p ps ih =>
    rw [Pattern.runSeq]
    split
    · nofun
    · nofun
    · next c' _ =>
      have := ih c'
      split <;> simp_all

mutual

theorem gives_run (hr : Respects callRule) (slot : Option Slot) (s s' : List Mode) (n : Int) :
    ∀ (p : Pattern) (c : Cursor), p.effect s = some (s', n) →
      Gives s s' n c.rest (p.run callRule slot c)
  | .literal text, c, h => by
    simp only [Pattern.effect, Option.ite_none_right_eq_some, Option.some.injEq, Prod.mk.injEq] at h
    obtain ⟨⟨hs, hm⟩, rfl, rfl⟩ := h
    rw [Pattern.run]
    split
    · next hc =>
      simp only [Token.isEof, Bool.and_eq_true, Bool.not_eq_true', decide_eq_true_eq,
        decide_eq_false_iff_not] at hc
      obtain ⟨hc, rfl⟩ := hc
      exact leads_consume hc fun _ _ _ _ h => h.literal hs hc (by simpa using hm)
    · rfl
  | .token kind, c, h => by
    simp only [Pattern.effect, Option.ite_none_right_eq_some, Option.some.injEq, Prod.mk.injEq] at h
    obtain ⟨hk, rfl, rfl⟩ := h
    rw [Pattern.run]
    split
    · next hc =>
      subst hc
      have hc : c.next.kind ≠ .eof := fun h => by simp [h, readIn] at hk
      exact leads_consume hc fun _ _ m _ h => by simpa using h.token hk
    · rfl
  | .rule r, c, h => by
    simp only [Pattern.effect, Option.ite_none_right_eq_some, Option.some.injEq, Prod.mk.injEq] at h
    obtain ⟨⟨ho, ht⟩, rfl, rfl⟩ := h
    have hc := hr r c
    rw [Pattern.run]
    split <;> simp_all only [Gives]
    intro total base m h
    rw [← ho] at h ⊢
    simpa using Tracks.inside ht h fun base h => by simpa using hc total base m h
  | .keep slot body, c, h => gives_run hr slot s s' n body c h
  | .seq parts, c, h => gives_runSeq hr slot true s s' n parts c h
  | .choice alternatives, c, h => by
    simp only [Pattern.effect, Option.ite_none_right_eq_some, Option.some.injEq, Prod.mk.injEq] at h
    obtain ⟨h, rfl, rfl⟩ := h
    exact gives_runChoice hr slot s alternatives none c h
  | .group mode body, c, h => by
    cases mode with
    | once => exact gives_run hr slot s s' n body c h
    | optional | many | some =>
      simp only [Pattern.effect, Option.ite_none_right_eq_some, Option.some.injEq,
        Prod.mk.injEq] at h
      obtain ⟨h, rfl, rfl⟩ := h
      exact gives_repeatMatch (gives_run hr slot s s 0 body · h) _ _ _ _ (fun _ => rfl) .refl

theorem gives_runSeq (hr : Respects callRule) (slot : Option Slot) (first : Bool)
    (s s' : List Mode) (n : Int) : ∀ (ps : List Pattern) (c : Cursor),
      Pattern.effectSeq s ps = some (s', n) →
      Gives s s' n c.rest (Pattern.runSeq callRule slot first ps c)
  | [], c, h => by
    obtain ⟨rfl, rfl⟩ := Prod.mk.inj (Option.some.inj h)
    exact .refl
  | p :: ps, c, h => by
    simp only [Pattern.effectSeq, Option.bind_eq_bind, Option.bind_eq_some_iff, Prod.exists] at h
    obtain ⟨s1, m, hp, s2, k, hps, h⟩ := h
    obtain ⟨rfl, rfl⟩ := Prod.mk.inj (Option.some.inj h)
    have h1 := gives_run hr slot s s1 m p c hp
    rw [Pattern.runSeq]
    match hc : p.run callRule slot c with
    | (.error e, c1) => trivial
    | (.noMatch, c1) =>
      rw [hc] at h1
      cases first
      · trivial
      · exact h1
    | (.matched kept, c1) =>
      rw [hc] at h1
      have h2 := gives_runSeq hr slot false s1 s2 k ps c1 hps
      simp only
      match hc2 : Pattern.runSeq callRule slot false ps c1 with
      | (.error e, c2) => trivial
      | (.noMatch, c2) => exact absurd (congrArg Prod.fst hc2) (runSeq_ne_noMatch slot ps c1)
      | (.matched more, c2) =>
        rw [hc2] at h2
        exact Leads.trans h1 h2

theorem gives_runChoice (hr : Respects callRule) (slot : Option Slot) (s : List Mode) :
    ∀ (ps : List Pattern) (best : Option (MatchError × Nat)) (c : Cursor),
      Pattern.isNeutral s ps = true →
      Gives s s 0 c.rest (Pattern.runChoice callRule slot ps best c)
  | [], none, c, _ => rfl
  | [], some _, c, _ => trivial
  | p :: ps, best, c, h => by
    simp only [Pattern.isNeutral, Bool.and_eq_true, decide_eq_true_eq] at h
    have h1 := gives_run hr slot s s 0 p c h.1
    rw [Pattern.runChoice]
    match hc : p.run callRule slot c with
    | (.error e, branch) =>
      simp only
      match hst : c.stop e branch with
      | (true, c') => trivial
      | (false, c') =>
        rw [← rest_stop hst]
        exact gives_runChoice hr slot s ps _ c' h.2
    | (.noMatch, branch) => exact gives_runChoice hr slot s ps best c h.2
    | (.matched kept, branch) =>
      rw [hc] at h1
      simpa [Gives] using h1

end

theorem respects_run (fuel : Nat) : Respects (Rule.run fuel) := by
  induction fuel with
  | zero => exact fun r c => trivial
  | succ fuel ih =>
    intro r c
    have h := gives_run ih none _ _ _ r.pattern c (effect_pattern r)
    rw [Rule.run]
    match hc : r.pattern.run (Rule.run fuel) none c with
    | (.error e, c') => trivial
    | (.noMatch, c') => rwa [hc] at h
    | (.matched kept, c') =>
      rw [hc] at h
      simp only
      cases Surface.build r c.next.position kept with
      | ok piece => exact h
      | error n => trivial

end Run

/-! ## Whole texts -/

theorem balance_significant {delta : Token → Int} (h : ∀ t, t.isSkipped → delta t = 0)
    (ts : List Token) : balance delta (ts.filter fun t => !t.isSkipped) = balance delta ts := by
  induction ts with
  | nil => rfl
  | cons t ts ih =>
    by_cases ht : t.isSkipped
    · simp [ht, balance, h t ht, ih]
    · simp [ht, balance, ih]

theorem balance_scanFrom {delta : Token → Int}
    (h : ∀ kind text p q, delta ⟨kind, text, p⟩ = delta ⟨kind, text, q⟩) {fuel : Nat}
    {modes : List Mode} {p : Position} {cs : List Char} (q : Position) :
    balance delta (scanFrom fuel modes p cs).1 = balance delta (scanFrom fuel modes q cs).1 := by
  fun_induction scanFrom fuel modes p cs generalizing q with
  | case1 => simp [scanFrom, balance, h _ _ _ q]
  | case2 => simp_all [scanFrom]
  | case3 => simp_all [scanFrom]
  | case4 fuel modes p cs hcs r taken hm ts e hts ih =>
    have ih := ih (q.advance taken)
    rw [hts] at ih
    rw [scanFrom.eq_3 _ _ _ _ hcs, hm]
    simp only [balance, h _ _ p q, ih]

theorem balance_scan (delta : Token → Int) (file file' source : String)
    (h : ∀ kind text p q, delta ⟨kind, text, p⟩ = delta ⟨kind, text, q⟩) :
    balance delta (scan file source).1 = balance delta (scan file' source).1 :=
  balance_scanFrom h _

theorem balance_end {modes : List Mode} {c : Cursor} (hl : Lexed modes c.rest) (h : c.next.isEof) :
    balance bracketDelta c.rest = 0 ∧ balance stringDelta c.rest = 0 := by
  obtain ⟨rest⟩ := c
  cases rest with
  | nil => exact ⟨rfl, rfl⟩
  | cons t ts =>
    have ht : t.kind = .eof := by simpa [Token.isEof, Cursor.next] using h
    rw [Lexed, if_pos ht] at hl
    simp [hl, balance, bracketDelta, stringDelta, ht]

theorem balanced_of_program? {tokens : List Token} {program : Surface.Program}
    (hl : Lexed [.root] tokens) (h : program? tokens = .ok program) :
    balance bracketDelta tokens = 0 ∧ balance stringDelta tokens = 0 := by
  have skipped (t : Token) (ht : t.isSkipped) : bracketDelta t = 0 ∧ stringDelta t = 0 := by
    obtain ⟨kind, text, p⟩ := t
    cases kind <;> simp_all [Token.isSkipped, bracketDelta, stringDelta]
  rw [← balance_significant (fun t ht => (skipped t ht).1) tokens,
    ← balance_significant (fun t ht => (skipped t ht).2) tokens]
  have hl := hl.significant
  unfold program? at h
  generalize tokens.filter (fun t => !t.isSkipped) = ts at h hl ⊢
  have hr := respects_run (rulesPerToken * (ts.length + 1)) .program { rest := ts }
  simp only at h
  split at h
  · cases h
  · next p c hc =>
    rw [hc] at hr
    have htop : Tracks (balance stringDelta ts) (some [.root]) [] (balance bracketDelta ts) ts :=
      .follows (by decide) ⟨hl, nested_root, by simp⟩ rfl
    cases hr _ _ _ htop with
    | follows _ hs hb =>
      have hend : c.next.isEof := by
        split at h
        · assumption
        · cases h
      obtain ⟨hb', hs'⟩ := balance_end hs.lexed hend
      rw [hb'] at hb
      have := hs.strings
      simp [hs', around] at this
      omega
    | lost _ hi => exact absurd (hi _ rfl) (by decide)
  · cases h

/-- In a text that can be parsed, brackets balance and strings are closed, so that nobody
is asked for more of it. -/
theorem isComplete_of_parse {file source : String} {program : Surface.Program}
    (h : Surface.parse file source = .ok program) :
    Session.isComplete source = true ∧ ∃ tokens, tokens? file source = .ok tokens ∧
      balance bracketDelta tokens = 0 ∧ balance stringDelta tokens = 0 := by
  unfold Surface.parse at h
  split at h
  · cases h
  · next ts hts =>
    have hscan : scan file source = (ts, none) := by
      unfold tokens? at hts
      split at hts <;> simp_all
    have hl : Lexed [.root] (scan file source).1 := lexed_scanFrom ..
    rw [hscan] at hl
    obtain ⟨hb, hs⟩ : balance bracketDelta ts = 0 ∧ balance stringDelta ts = 0 := by
      cases hp : program? ts with
      | error e => rw [hp] at h; cases h
      | ok p => exact balanced_of_program? hl hp
    refine ⟨?_, ts, hts, hb, hs⟩
    have hb' := balance_scan bracketDelta "<repl>" file source fun _ _ _ _ => rfl
    have hs' := balance_scan stringDelta "<repl>" file source fun _ _ _ _ => rfl
    unfold Session.isComplete
    split <;> simp_all

/-- A string with a brace, inside an interpolation in a string, inside a map. -/
def nestedStrings : String :=
  "library t; fun f() => \x7b1: \"a$\x7bg(\"\x7d\")\x7d\"\x7d;"

theorem isComplete_nestedStrings : (∃ p, Surface.parse "t" nestedStrings = .ok p) ∧
    Session.isComplete nestedStrings = true := by
  have hparse : (Surface.parse "t" nestedStrings).isOk = true := by decide +kernel
  cases h : Surface.parse "t" nestedStrings with
  | error d => simp [h, Except.isOk, Except.toBool] at hparse
  | ok p => exact ⟨⟨p, rfl⟩, (isComplete_of_parse h).1⟩

end Flowgraph.Grammar
