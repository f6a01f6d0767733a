import Flowgraph.Proofs.Token.Modes

/-! # Scanning piece by piece

A text that is put together from words, numerals, blanks and operators is read as these.
-/

namespace Flowgraph.Lexer

/-- Where scanning stands: the open modes, the place, and the text ahead. -/
structure Front where
  modes : List Mode
  position : Position
  text : List Char

/-- Between two places these tokens are read. -/
inductive Scans : Front → List Token → Front → Prop
  | nil {f : Front} : Scans f [] f
  | cons {modes : List Mode} {p : Position} {cs : List Char} {r : Rule} {ts : List Token} {f : Front}
      (taken : List Char) : firstMatch (top modes).rules (taken ++ cs) = some (r, taken) →
      Scans ⟨r.shift.apply modes, p.advance taken, cs⟩ ts f →
      Scans ⟨modes, p, taken ++ cs⟩ (⟨r.kind, String.ofList taken, p⟩ :: ts) f

theorem Scans.trans {f g h : Front} {ts us : List Token} (hts : Scans f ts g) (hus : Scans g us h) :
    Scans f (ts ++ us) h := by
  induction hts with
  | nil => exact hus
  | cons taken hmatch _ ih => exact .cons taken hmatch (ih hus)

theorem Scans.scanFrom {f g : Front} {ts : List Token} (h : Scans f ts g) (hg : g.text = [])
    {fuel : Nat} (hfuel : f.text.length ≤ fuel) :
    Lexer.scanFrom fuel f.modes f.position f.text = (ts ++ [⟨.eof, "", g.position⟩], none) := by
  induction h generalizing fuel with
  | @nil f =>
    rw [hg, scanFrom.eq_1]
    rfl
  | @cons modes p cs r ts f taken hmatch _ ih =>
    have hne := (firstMatch_mem hmatch).2.2
    have hlength : 0 < taken.length := List.length_pos_iff.mpr hne
    simp only [List.length_append] at hfuel
    obtain ⟨fuel, rfl⟩ : ∃ k, fuel = k + 1 := ⟨fuel - 1, by omega⟩
    have hrest : cs.length ≤ fuel := by omega
    rw [scanFrom.eq_3 _ _ _ _ (by simp [hne])]
    dsimp only
    rw [← top, hmatch]
    dsimp only
    rw [List.drop_left, ih hg hrest]
    rfl

theorem tokens?_of_scans {file source : String} {ts : List Token} {g : Front}
    (h : Scans ⟨[.root], { file, line := 1, column := 1 }, source.toList⟩ ts g) (hg : g.text = []) :
    tokens? file source = .ok (ts ++ [⟨.eof, "", g.position⟩]) := by
  simp only [tokens?, scan, h.scanFrom hg (Nat.le_refl _)]

/-! ## Words and numerals -/

/-- Characters that no token goes on with. -/
def breaks : List Char := [' ', ')', ']', '\x7d', ',', ';']

/-- No token before the text goes on into it. -/
def Breaks (cs : List Char) : Prop := ∀ c ∈ cs.head?, c ∈ breaks

theorem breaks_cons {c : Char} {cs : List Char} (h : c ∈ breaks) : Breaks (c :: cs) := by
  rintro _ ⟨⟩
  exact h

theorem Breaks.ends {c : Char} {cs : List Char} (h : Breaks cs) (hc : c ∈ cs.head?) :
    isWord c = false ∧ c ≠ '.' := by
  have hall : (breaks.all fun c => !isWord c && c != '.') = true := by decide
  simpa using List.all_eq_true.mp hall c (h c hc)

theorem takeWhile_append_breaks {q : Char → Bool} {w cs : List Char} (hw : ∀ c ∈ w, q c = true)
    (hcs : ∀ c ∈ cs.head?, q c = false) : (w ++ cs).takeWhile q = w ∧ (w ++ cs).dropWhile q = cs := by
  have hnone : cs.takeWhile q = [] ∧ cs.dropWhile q = cs := by
    cases cs with
    | nil => exact ⟨rfl, rfl⟩
    | cons c cs => simp [hcs c rfl]
  rw [List.takeWhile_append_of_pos hw, List.dropWhile_append_of_pos hw]
  simp [hnone]

theorem isDigit_of_isWordStart {c : Char} (h : isWordStart c = true) : c.isDigit = false := by
  refine Bool.eq_false_iff.mpr fun hd => ?_
  by_cases hc : c = '_'
  · rw [hc] at hd
    cases hd
  · have halpha : c.isAlpha = true := by simpa [isWordStart, hc] using h
    have hrange : (decide (c.val ≥ 65 ∧ c.val ≤ 90) || c.val ≥ 97 && c.val ≤ 122) = true := halpha
    have hdigit : (c.val ≥ 48 && c.val ≤ 57) = true := hd
    grind

theorem isWord_of_isDigit {c : Char} (h : c.isDigit = true) : isWord c = true := by
  simp [isWord, Char.isAlphanum, h]

/-- A character that starts a word or a numeral is told apart from all others. -/
theorem ne_of_isWord {c d : Char} (h : isWord c = true) (hd : isWord d = false) : c ≠ d := by
  rintro rfl
  exact Bool.false_ne_true (hd.symm.trans h)

theorem isBlank_of_isWord {c : Char} (h : isWord c = true) : isBlank c = false := by
  have hne (d : Char) := ne_of_isWord (d := d) h
  simp [isBlank, hne ' ' (by decide), hne '\t' (by decide), hne '\r' (by decide), hne '\n' (by decide)]

theorem isWord_of_isWordStart {c : Char} (h : isWordStart c = true) : isWord c = true := by
  simp only [isWordStart, Bool.or_eq_true] at h
  rcases h with h | h <;> simp [isWord, Char.isAlphanum, h]

/-- No comment or blank starts with a word or a numeral. -/
theorem firstMatch_of_isWord {c : Char} {cs : List Char} (h : isWord c = true) :
    firstMatch rootRules (c :: cs) = firstMatch (rootRules.drop 2) (c :: cs) := by
  have hcomment : comment (c :: cs) = [] := by
    unfold comment
    split
    · next heq => exact absurd (List.cons.inj heq).1 (ne_of_isWord h (by decide))
    · rfl
  simp [rootRules, firstMatch, hcomment, isBlank_of_isWord h]

theorem isWordStart_of_word {c : Char} {w : List Char} (h : word (c :: w) = c :: w) :
    isWordStart c = true := by
  cases hc : isWordStart c with
  | true => rfl
  | false => simp [word, hc] at h

/-- A word is read as a whole. -/
theorem firstMatch_word {w cs : List Char} (hw : word w = w) (hne : w ≠ []) (hcs : Breaks cs) :
    firstMatch rootRules (w ++ cs) = some (if String.ofList w ∈ keywords then
      ⟨.keyword, keyword, .stay⟩ else ⟨.ident, word, .stay⟩, w) := by
  obtain ⟨c, w, rfl⟩ := List.exists_cons_of_ne_nil hne
  have hc := isWordStart_of_word hw
  have hword := isWord_of_isWordStart hc
  have hdigit := isDigit_of_isWordStart hc
  have hrest : ∀ d ∈ w, isWord d = true := by
    simp only [word, hc, if_true, List.cons.injEq, true_and] at hw
    exact List.all_eq_true.mp (hw ▸ List.all_takeWhile)
  have htaken : word (c :: (w ++ cs)) = c :: w := by
    rw [word, if_pos hc, (takeWhile_append_breaks hrest fun d hd => (hcs.ends hd).1).1]
  have hfloat : float (c :: (w ++ cs)) = [] := by
    simp only [float, List.dropWhile_cons, hdigit, List.takeWhile_cons]
    split <;> rfl
  have hinteger : integer (c :: (w ++ cs)) = [] := by
    unfold integer
    split
    · next heq =>
      rw [(List.cons.inj heq).1] at hdigit
      cases hdigit
    · simp [hdigit]
  have hquote : literal "\"" (c :: (w ++ cs)) = [] :=
    if_neg (by simpa using (ne_of_isWord hword (by decide)).symm)
  rw [List.cons_append, firstMatch_of_isWord hword]
  simp only [rootRules, List.drop_succ_cons, List.drop_zero, firstMatch, hfloat, hinteger, hquote, htaken, keyword]
  split <;> simp_all

theorem firstMatch_integer {w cs : List Char} (hw : ∀ c ∈ w, c.isDigit = true) (hne : w ≠ [])
    (hcs : Breaks cs) :
    firstMatch rootRules (w ++ cs) = some (⟨.integer, integer, .stay⟩, w) := by
  have hends (d : Char) (hd : d ∈ cs.head?) : d.isDigit = false :=
    Bool.eq_false_iff.mpr fun h => Bool.false_ne_true ((hcs.ends hd).1.symm.trans (isWord_of_isDigit h))
  obtain ⟨htake, hdrop⟩ := takeWhile_append_breaks hw hends
  have hfloat : float (w ++ cs) = [] := by
    simp only [float, hdrop]
    split
    · exact absurd rfl (hcs.ends rfl).2
    · rfl
  have hinteger : integer (w ++ cs) = w := by
    unfold integer
    split
    · next x rest heq =>
      have hx : x ∈ w ∨ x ∈ cs.head? := by
        obtain ⟨c, w, rfl⟩ := List.exists_cons_of_ne_nil hne
        have hrest : w ++ cs = x :: rest := (List.cons.inj heq).2
        cases w with
        | nil => exact .inr (congrArg List.head? hrest)
        | cons d w => simp [← (List.cons.inj hrest).1]
      have hletter (y : Char) (hy : y.isDigit = false) (hy' : isWord y = true) : x ≠ y := by
        rintro rfl
        rcases hx with hx | hx
        · exact Bool.false_ne_true (hy.symm.trans (hw x hx))
        · exact Bool.false_ne_true ((hcs.ends hx).1.symm.trans hy')
      rw [if_neg fun h => h.1.elim (hletter 'x' rfl rfl) (hletter 'X' rfl rfl)]
      exact htake
    · exact htake
  obtain ⟨c, w, rfl⟩ := List.exists_cons_of_ne_nil hne
  rw [List.cons_append] at hfloat hinteger ⊢
  rw [firstMatch_of_isWord (isWord_of_isDigit (hw c (by simp)))]
  simp only [rootRules, List.drop_succ_cons, List.drop_zero, firstMatch, hfloat, hinteger]

theorem firstMatch_blank {c : Char} {cs : List Char} (hc : isBlank c = false) :
    firstMatch rootRules (' ' :: c :: cs) = some (⟨.whitespace, (·.takeWhile isBlank), .stay⟩, [' ']) := by
  have hblank : (' ' :: c :: cs).takeWhile isBlank = [' '] := by
    simp [hc, show isBlank ' ' = true from rfl]
  simp only [rootRules, firstMatch, comment, hblank]
  rfl

/-! ## Texts and their tokens -/

def significant (ts : List Token) : List Token := ts.filter fun t => !t.isSkipped

/-- One token, wherever it stands. -/
def One (kind : TokenKind) (text : String) (ts : List Token) : Prop := ∃ p, ts = [⟨kind, text, p⟩]

/-- Tokens of one form and then tokens of another. -/
def Both (P Q : List Token → Prop) (ts : List Token) : Prop := ∃ us vs, ts = us ++ vs ∧ P us ∧ Q vs

/-- Outside of strings the text is read as tokens of this form, if it ends where a token can. -/
structure Lexes (text : List Char) (P : List Token → Prop) : Prop where
  starts : ∃ c cs, text = c :: cs ∧ isBlank c = false ∧ c ≠ '='
  scans : ∀ p cs, Breaks cs →
    ∃ ts q, Scans ⟨[.root], p, text ++ cs⟩ ts ⟨[.root], q, cs⟩ ∧ P (significant ts)

namespace Lexes

variable {text text' : List Char} {P Q : List Token → Prop}

theorem imp (h : Lexes text P) (hPQ : ∀ ts, P ts → Q ts) : Lexes text Q where
  starts := h.starts
  scans p cs hcs := by
    obtain ⟨ts, q, hscans, hts⟩ := h.scans p cs hcs
    exact ⟨ts, q, hscans, hPQ _ hts⟩

/-- A text that is one token. -/
theorem one {w : String} {kind : TokenKind} {take : List Char → List Char}
    (hstarts : ∃ c cs, w.toList = c :: cs ∧ isBlank c = false ∧ c ≠ '=')
    (hkind : kind ≠ .whitespace ∧ kind ≠ .comment) (h : ∀ cs, Breaks cs →
      firstMatch rootRules (w.toList ++ cs) = some (⟨kind, take, .stay⟩, w.toList)) :
    Lexes w.toList (One kind w) where
  starts := hstarts
  scans p cs hcs :=
    ⟨_, _, .cons w.toList (h cs hcs) .nil, p, by simp [significant, Token.isSkipped, hkind]⟩

/-- Two texts with a blank between them. -/
theorem join (h : Lexes text P) (h' : Lexes text' Q) : Lexes (text ++ ' ' :: text') (Both P Q) where
  starts := by
    obtain ⟨c, cs, rfl, hc⟩ := h.starts
    exact ⟨c, _, rfl, hc⟩
  scans p cs hcs := by
    obtain ⟨ts, q, hscans, hts⟩ := h.scans p (' ' :: (text' ++ cs)) (breaks_cons (by decide))
    obtain ⟨ts', q', hscans', hts'⟩ := h'.scans (q.advance [' ']) cs hcs
    obtain ⟨c, text', rfl, hc, -⟩ := h'.starts
    have hall := hscans.trans (.cons [' '] (firstMatch_blank hc) hscans')
    refine ⟨_, q', by simpa using hall, significant ts, significant ts', ?_, hts, hts'⟩
    simp [significant, Token.isSkipped]

/-- A closing bracket, a comma or a semicolon behind a text. -/
theorem before {c : Char} (h : Lexes text P) (hc : c ∈ breaks) (hblank : c ≠ ' ') :
    Lexes (text ++ [c]) (Both P (One .operator (String.ofList [c]))) where
  starts := by
    obtain ⟨d, cs, rfl, hd⟩ := h.starts
    exact ⟨d, _, rfl, hd⟩
  scans p cs hcs := by
    obtain ⟨ts, q, hscans, hts⟩ := h.scans p (c :: cs) (breaks_cons hc)
    have hmatch : firstMatch rootRules (c :: cs) = some (⟨.operator, operator, .stay⟩, [c]) := by
      simp only [breaks, List.mem_cons, List.not_mem_nil, or_false] at hc
      rcases hc with rfl | rfl | rfl | rfl | rfl | rfl
      · exact absurd rfl hblank
      all_goals rfl
    have hall := hscans.trans (.cons [c] hmatch .nil)
    refine ⟨_, _, by simpa [Shift.apply] using hall, significant ts, _, ?_, hts, q, rfl⟩
    simp [significant, Token.isSkipped]

/-- An opening bracket or an operator in front of its operand. -/
theorem after {c : Char} (h : Lexes text P) (hc : c ∈ ['(', '[', '-', '!']) :
    Lexes (c :: text) (Both (One .operator (String.ofList [c])) P) where
  starts := by
    have hall : (['(', '[', '-', '!'].all fun c => !isBlank c && c != '=') = true := by decide
    exact ⟨c, text, rfl, by simpa using List.all_eq_true.mp hall c hc⟩
  scans p cs hcs := by
    obtain ⟨ts, q, hscans, hts⟩ := h.scans (p.advance [c]) cs hcs
    obtain ⟨d, text, rfl, hd, hne⟩ := h.starts
    have hmatch : firstMatch rootRules (c :: d :: (text ++ cs)) = some (⟨.operator, operator, .stay⟩, [c]) := by
      simp only [List.mem_cons, List.not_mem_nil, or_false] at hc
      rcases hc with rfl | rfl | rfl | rfl
      · rfl
      · rfl
      · rfl
      · have hoperator : operator ('!' :: d :: (text ++ cs)) = ['!'] := by
          simp [operator, operators, hne.symm]
        have hlast : firstMatch rootRules ('!' :: d :: (text ++ cs)) =
            firstMatch [⟨.operator, operator, .stay⟩] ('!' :: d :: (text ++ cs)) := rfl
        simp only [hlast, firstMatch, hoperator]
    refine ⟨_, q, .cons [c] hmatch hscans, _, significant ts, ?_, ⟨p, rfl⟩, hts⟩
    simp [significant, Token.isSkipped]

end Lexes

end Flowgraph.Lexer
