import Flowgraph.Session

/-! # The modes behind a token list

Which tokens can stand next is decided by the innermost open mode. Outside of strings
only operators are spelled like brackets, with one exception: the brace that closes
an interpolation.
-/

namespace Flowgraph

open Session (balance bracketDelta stringDelta)

/-- How a token of this kind changes the stack of modes. -/
def TokenKind.shift : TokenKind → Lexer.Shift
  | .stringStart => .push .string
  | .interpolationStart => .push .interpolation
  | .stringEnd | .interpolationEnd => .pop
  | _ => .stay

namespace Lexer

variable {mode : Mode} {modes : List Mode} {t : Token} {cs : List Char} {w : String} {r : Rule}

/-- The innermost open mode. -/
def top (modes : List Mode) : Mode := modes.headD .root

@[simp] theorem top_nil : top [] = .root := rfl

@[simp] theorem top_cons : top (mode :: modes) = mode := rfl

theorem eq_cons_of_top (h : top modes = mode)
    (hm : mode ≠ .root) : ∃ rest, modes = mode :: rest := by
  cases modes with
  | nil => exact absurd h.symm hm
  | cons m rest => exact ⟨rest, congrArg (· :: rest) h⟩

/-- How far an operator with this text opens or closes brackets. -/
def bracket (text : String) : Int := bracketDelta ⟨.operator, text, default⟩

/-- The texts that only strings give a meaning to. -/
def isMark (text : String) : Bool :=
  text = "\"" || text = "$\x7b" || text.toList.head? = some '\\'

/-- The tokens that a mode can give. -/
inductive Fits : Mode → TokenKind → String → Prop
  | chars {text : String} : Fits .string .chars text
  | escaped {text : String} : isMark text → Fits .string .escaped text
  | unquote : Fits .string .stringEnd "\""
  | opening : Fits .string .interpolationStart "$\x7b"
  | quote {mode : Mode} : mode ≠ .string → Fits mode .stringStart "\""
  | close : Fits .interpolation .interpolationEnd "\x7d"
  | code {mode : Mode} {kind : TokenKind} {text : String} : mode ≠ .string → kind.shift = .stay →
      (kind = .operator ∨ bracket text = 0) → (mode = .interpolation → text ≠ "\x7d") →
      Fits mode kind text

/-- The tokens can be read from the given modes on. -/
def Lexed : List Mode → List Token → Prop
  | _, [] => True
  | modes, t :: ts =>
    if t.kind = .eof then ts = []
    else Fits (top modes) t.kind t.text ∧ Lexed (t.kind.shift.apply modes) ts

/-! ## What the rules give -/

def brackets : List Char := ['\x7b', '(', '[', '\x7d', ')', ']']

theorem bracketDelta_eq (h : t.kind = .operator ∨ bracket t.text = 0) :
    bracketDelta t = bracket t.text := by
  obtain ⟨kind, text, p⟩ := t
  by_cases hk : kind = .operator
  · subst hk
    rfl
  · rw [h.resolve_left hk]
    cases kind <;> simp_all [bracketDelta]

theorem bracket_eq_zero {text : String} (h : ∀ c ∈ text.toList.head?, c ∉ brackets) :
    bracket text = 0 := by
  unfold bracket bracketDelta
  split <;> simp_all [brackets]

theorem bracket_ofList {p : Char → Bool} (hp : brackets.any p = false)
    (h : ∀ c ∈ cs.head?, p c = true) : bracket (String.ofList cs) = 0 := by
  refine bracket_eq_zero fun c hc hb => ?_
  rw [String.toList_ofList] at hc
  exact List.any_eq_false.mp hp c hb (h c hc)

theorem head_takeWhile {p : Char → Bool} (cs : List Char) : ∀ c ∈ (cs.takeWhile p).head?, p c := by
  simp only [List.head?_takeWhile, Option.mem_def, Option.filter_eq_some_iff]
  exact fun c h => h.2

theorem head_float : ∀ c ∈ (float cs).head?, c.isDigit := by
  simp only [float]
  split
  · split
    · simp
    · next hw =>
      have hw : cs.takeWhile Char.isDigit ≠ [] := by simp_all
      intro c hc
      obtain ⟨d, ds, hd⟩ := List.exists_cons_of_ne_nil hw
      exact head_takeWhile cs c (by rw [hd] at hc ⊢; exact hc)
  · simp

theorem head_integer : ∀ c ∈ (integer cs).head?, c.isDigit := by
  simp only [integer]
  split
  · split
    · simp
    · exact head_takeWhile _
  · exact head_takeWhile _

theorem head_word : ∀ c ∈ (word cs).head?, isWordStart c := by
  unfold word
  split
  · split <;> simp_all
  · simp

theorem Fits.literal {kind : TokenKind} (hf : Fits mode kind w) (h : literal w cs ≠ []) :
    Fits mode kind (String.ofList (literal w cs)) := by
  unfold Lexer.literal at h ⊢
  split <;> simp_all

theorem firstMatch_mem {rules : List Rule} {taken : List Char}
    (h : firstMatch rules cs = some (r, taken)) : r ∈ rules ∧ r.take cs = taken ∧ taken ≠ [] := by
  induction rules with
  | nil => simp [firstMatch] at h
  | cons q rules ih =>
    rw [firstMatch] at h
    split at h
    · exact (ih h).imp_left (List.mem_cons_of_mem q)
    · next hq =>
      obtain ⟨rfl, rfl⟩ := Prod.mk.inj (Option.some.inj h)
      exact ⟨List.mem_cons_self, rfl, hq⟩

theorem rootRules_give (h : r ∈ rootRules) (hc : r.take cs ≠ []) :
    r.shift = r.kind.shift ∧ r.kind ≠ .eof ∧ (r = ⟨.stringStart, literal "\"", .push .string⟩ ∨
      r.kind.shift = .stay ∧
        (r = ⟨.operator, operator, .stay⟩ ∨ bracket (String.ofList (r.take cs)) = 0)) := by
  simp only [rootRules, List.mem_cons, List.not_mem_nil, or_false] at h
  rcases h with rfl | rfl | rfl | rfl | rfl | rfl | rfl | rfl
  · refine ⟨rfl, by decide, .inr ⟨rfl, .inr (bracket_ofList (p := (· == '/')) (by decide) ?_)⟩⟩
    simp only [comment]
    split <;> simp
  · exact ⟨rfl, by decide, .inr ⟨rfl, .inr (bracket_ofList (by decide) (head_takeWhile cs))⟩⟩
  · exact ⟨rfl, by decide, .inr ⟨rfl, .inr (bracket_ofList (by decide) head_float)⟩⟩
  · exact ⟨rfl, by decide, .inr ⟨rfl, .inr (bracket_ofList (by decide) head_integer)⟩⟩
  · exact ⟨rfl, by decide, .inl rfl⟩
  · refine ⟨rfl, by decide, .inr ⟨rfl, .inr (bracket_ofList (p := isWordStart) (by decide) ?_)⟩⟩
    simp only [keyword]
    split
    · exact head_word
    · simp
  · exact ⟨rfl, by decide, .inr ⟨rfl, .inr (bracket_ofList (by decide) head_word)⟩⟩
  · exact ⟨rfl, by decide, .inr ⟨rfl, .inl rfl⟩⟩

theorem operator_prefix : operator cs <+: cs := by
  unfold operator
  split
  · next op h =>
    have := List.find?_some h
    exact List.isPrefixOf_iff_prefix.mp this
  · exact List.nil_prefix

theorem literal_prefix : literal w cs <+: cs := by
  unfold literal
  split
  · next h => exact List.isPrefixOf_iff_prefix.mp h
  · exact List.nil_prefix

theorem word_prefix : word cs <+: cs := by
  unfold word
  split
  · split
    · exact List.cons_prefix_cons.mpr ⟨rfl, List.takeWhile_prefix _⟩
    · exact List.nil_prefix
  · exact List.nil_prefix

theorem exponent_prefix : exponent cs <+: cs := by
  simp only [exponent]
  repeat' split
  all_goals simp [List.takeWhile_prefix]

theorem float_prefix : float cs <+: cs := by
  simp only [float]
  split
  · next rest hrest =>
    split
    · exact List.nil_prefix
    · have hfraction : rest.takeWhile Char.isDigit ++ exponent (rest.dropWhile Char.isDigit) <+: rest := by
        conv => rhs; rw [← List.takeWhile_append_dropWhile (p := Char.isDigit) (l := rest)]
        exact (List.prefix_append_right_inj _).mpr exponent_prefix
      conv => rhs; rw [← List.takeWhile_append_dropWhile (p := Char.isDigit) (l := cs), hrest]
      rw [List.append_assoc, List.prefix_append_right_inj]
      exact List.cons_prefix_cons.mpr ⟨rfl, hfraction⟩
  · exact List.nil_prefix

theorem integer_prefix : integer cs <+: cs := by
  simp only [integer]
  repeat' split
  all_goals simp [List.takeWhile_prefix]

theorem take_prefix (h : r ∈ mode.rules) (cs : List Char) : r.take cs <+: cs := by
  have root (h : r ∈ rootRules) : r.take cs <+: cs := by
    simp only [rootRules, List.mem_cons, List.not_mem_nil, or_false] at h
    rcases h with rfl | rfl | rfl | rfl | rfl | rfl | rfl | rfl
    · simp only [comment]
      split <;> simp [List.takeWhile_prefix]
    · exact List.takeWhile_prefix _
    · exact float_prefix
    · exact integer_prefix
    · exact literal_prefix
    · simp only [keyword]
      split
      · exact word_prefix
      · exact List.nil_prefix
    · exact word_prefix
    · exact operator_prefix
  cases mode with
  | root => exact root h
  | string =>
    simp only [Mode.rules, stringRules, List.mem_cons, List.not_mem_nil, or_false] at h
    rcases h with rfl | rfl | rfl | rfl
    · simp only [escaped]
      repeat' split
      all_goals simp
    · exact literal_prefix
    · exact literal_prefix
    · simp only [chars]
      split
      · exact literal_prefix
      · exact List.takeWhile_prefix _
  | interpolation =>
    obtain rfl | h := List.mem_cons.mp h
    · exact literal_prefix
    · exact root h

theorem literal_of_prefix (h : w.toList <+: cs) :
    literal w cs = w.toList := if_pos (List.isPrefixOf_iff_prefix.mpr h)

/-- A brace that closes an interpolation is not left to the other rules. -/
theorem firstMatch_fits {taken : List Char} (h : firstMatch mode.rules cs = some (r, taken)) :
    r.shift = r.kind.shift ∧ r.kind ≠ .eof ∧ Fits mode r.kind (String.ofList taken) := by
  obtain ⟨hr, rfl, hne⟩ := firstMatch_mem h
  have outside (hm : mode ≠ .string) (hr : r ∈ rootRules)
      (hb : mode = .interpolation → literal "\x7d" cs = []) :
      r.shift = r.kind.shift ∧ r.kind ≠ .eof ∧ Fits mode r.kind (String.ofList (r.take cs)) := by
    obtain ⟨hs, he, rfl | ⟨hk, hb'⟩⟩ := rootRules_give hr hne
    · exact ⟨hs, he, .literal (.quote hm) hne⟩
    · refine ⟨hs, he, .code hm hk (hb'.imp_left (congrArg Rule.kind)) fun hi heq => ?_⟩
      obtain rfl | hb' := hb'
      · have ht : operator cs = "\x7d".toList := by rw [← heq, String.toList_ofList]
        have := literal_of_prefix (ht ▸ operator_prefix)
        simp [hb hi] at this
      · rw [heq] at hb'
        exact absurd hb' (by decide)
  cases mode with
  | root => exact outside (by decide) hr nofun
  | string =>
    simp only [Mode.rules, stringRules, List.mem_cons, List.not_mem_nil, or_false] at hr
    rcases hr with rfl | rfl | rfl | rfl
    · refine ⟨rfl, by decide, .escaped ?_⟩
      simp only [escaped] at hne ⊢
      split at hne
      · split at hne <;> simp_all [isMark]
      · simp at hne
    · exact ⟨rfl, by decide, .literal .unquote hne⟩
    · exact ⟨rfl, by decide, .literal .opening hne⟩
    · exact ⟨rfl, by decide, .chars⟩
  | interpolation =>
    rw [Mode.rules, firstMatch] at h
    split at h
    · next hw => exact outside (by decide) (firstMatch_mem h).1 fun _ => hw
    · obtain ⟨rfl, -⟩ := Prod.mk.inj (Option.some.inj h)
      exact ⟨rfl, by decide, .literal .close hne⟩

theorem lexed_scanFrom (fuel : Nat) (modes : List Mode) (p : Position) (cs : List Char) :
    Lexed modes (scanFrom fuel modes p cs).1 := by
  fun_induction scanFrom fuel modes p cs with
  | case1 => simp [Lexed]
  | case2 => trivial
  | case3 => trivial
  | case4 fuel modes p cs hcs r taken hm ts e hts ih =>
    obtain ⟨hs, he, hf⟩ := firstMatch_fits hm
    rw [hts, hs] at ih
    rw [Lexed, if_neg he]
    exact ⟨hf, ih⟩

theorem Lexed.significant {ts : List Token} (h : Lexed modes ts) :
    Lexed modes (ts.filter fun t => !t.isSkipped) := by
  induction ts generalizing modes with
  | nil => trivial
  | cons t ts ih =>
    rw [Lexed] at h
    split at h
    · next he => simp [h, Token.isSkipped, he, Lexed]
    · next he =>
      rw [List.filter_cons]
      split
      · rw [Lexed, if_neg he]
        exact h.imp_right ih
      · next hs =>
        have hk : t.isSkipped = true := by simpa using hs
        simp only [Token.isSkipped, Bool.or_eq_true, decide_eq_true_eq] at hk
        obtain hk | hk := hk <;> rw [hk] at h <;> exact ih h.2

/-! ## Reading on -/

/-- Interpolations are open in strings only, and strings and whole texts are not. -/
def Nested (modes : List Mode) : Prop :=
  ∀ mode rest, mode :: rest <:+ modes → (top rest = .string ↔ mode = .interpolation)

theorem nested_root : Nested [.root] := by
  intro mode rest hs
  obtain heq | hs := List.suffix_cons_iff.mp hs
  · obtain ⟨rfl, rfl⟩ := List.cons.inj heq
    decide
  · simp at hs

theorem Nested.push (h : Nested modes)
    (hm : top modes = .string ↔ mode = .interpolation) : Nested (mode :: modes) := by
  intro m rest hs
  obtain heq | hs := List.suffix_cons_iff.mp hs
  · obtain ⟨rfl, rfl⟩ := List.cons.inj heq
    exact hm
  · exact h m rest hs

theorem Nested.pop (h : Nested modes) : Nested modes.tail :=
  fun m rest hs => h m rest (hs.trans (List.tail_suffix modes))

theorem stringDelta_eq_zero (h : t.kind.shift = .stay) : stringDelta t = 0 := by
  unfold stringDelta
  split <;> simp_all [TokenKind.shift]

/-- The tokens are read on from the modes; `total` strings are open at the end of them. -/
structure Stands (total : Int) (modes : List Mode) (ts : List Token) : Prop where
  lexed : Lexed modes ts
  nested : Nested modes
  strings : balance stringDelta ts + modes.count .string = total

theorem Stands.next {total : Int} {ts : List Token}
    (h : Stands total modes (t :: ts)) (ht : t.kind ≠ .eof) :
    Fits (top modes) t.kind t.text ∧ Stands total (t.kind.shift.apply modes) ts := by
  obtain ⟨kind, text, p⟩ := t
  obtain ⟨hl, hn, rfl⟩ := h
  rw [Lexed, if_neg ht] at hl
  obtain ⟨hf, hl⟩ := hl
  refine ⟨hf, hl, ?_, ?_⟩ <;> clear hl <;> simp only at hf ⊢ <;>
    generalize hm : top modes = mode at hf
  · cases hf with
    | chars | escaped => exact hn
    | unquote | close => exact hn.pop
    | opening => exact hn.push (by simp [hm])
    | quote hne => exact hn.push (by simp [hm, hne])
    | code _ hk => rw [hk]; exact hn
  · simp only [balance]
    cases hf with
    | chars | escaped | opening => simp [stringDelta, TokenKind.shift, Shift.apply]
    | quote => simp [stringDelta, TokenKind.shift, Shift.apply]; omega
    | unquote =>
      obtain ⟨rest, rfl⟩ := eq_cons_of_top hm (by decide)
      simp [stringDelta, TokenKind.shift, Shift.apply]; omega
    | close =>
      obtain ⟨rest, rfl⟩ := eq_cons_of_top hm (by decide)
      simp [stringDelta, TokenKind.shift, Shift.apply]
    | code _ hk => simp [stringDelta_eq_zero (t := ⟨kind, text, p⟩) hk, hk, Shift.apply]

end Lexer

end Flowgraph
