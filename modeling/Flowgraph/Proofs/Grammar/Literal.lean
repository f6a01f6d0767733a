import Flowgraph.Proofs.Grammar.Level
import Flowgraph.Proofs.Token.Scan
import Flowgraph.Resolve.Library

/-! # Written strings

Every text can be written as a string literal that is read as this text.
-/

namespace Flowgraph

/-- The characters that mean something inside a string literal. -/
def isSpecial (c : Char) : Bool := c == '$' || c == '"' || c == '\\'

/-- A text with a backslash before each special character. -/
def escape (cs : List Char) : List Char :=
  cs.flatMap fun c => if isSpecial c then ['\\', c] else [c]

/-- The tokens are parts of a string literal that stand for a text. -/
inductive Spells : List Token → List Char → Prop
  | nil : Spells [] []
  | chars {p : Position} {run cs : List Char} {ts : List Token} : Spells ts cs →
      Spells (⟨.chars, String.ofList run, p⟩ :: ts) (run ++ cs)
  | escaped {p : Position} {c : Char} {cs : List Char} {ts : List Token} : isSpecial c = true →
      Spells ts cs → Spells (⟨.escaped, String.ofList ['\\', c], p⟩ :: ts) (c :: cs)

namespace Lexer

variable (modes : List Mode) (p : Position) {run : List Char} {c : Char}

theorem firstMatch_chars (hrun : ∀ d ∈ run, isSpecial d = false) (hne : run ≠ [])
    (hc : isSpecial c = true) (cs : List Char) :
    firstMatch stringRules (run ++ c :: cs) = some (⟨.chars, Lexer.chars, .stay⟩, run) := by
  have hplain : (fun d => d != '$' && d != '"' && d != '\\') = fun d => !isSpecial d := by
    funext d
    simp [isSpecial, bne]
  have htake : (run ++ c :: cs).takeWhile (fun d => !isSpecial d) = run := by
    rw [List.takeWhile_append_of_pos (by simpa using hrun),
      List.takeWhile_cons_of_neg (by simp [hc]), List.append_nil]
  obtain ⟨d, run, rfl⟩ := List.exists_cons_of_ne_nil hne
  have hd : (d ≠ '$' ∧ d ≠ '"') ∧ d ≠ '\\' := by
    simpa [isSpecial] using hrun d (List.mem_cons_self ..)
  have hescaped : escaped (d :: (run ++ c :: cs)) = [] := by
    unfold escaped
    split
    · next heq => exact absurd (List.cons.inj heq).1 hd.2
    · rfl
  have hchars : Lexer.chars (d :: (run ++ c :: cs)) = d :: run := by
    rw [Lexer.chars, hplain, ← List.cons_append, htake]
  simp [stringRules, firstMatch, hescaped, hchars, literal, hd.1.1.symm, hd.1.2.symm]

/-- Plain characters up to a special one are read as one part. -/
theorem scans_run (hrun : ∀ d ∈ run, isSpecial d = false) (hc : isSpecial c = true) (cs : List Char) :
    ∃ ts q, Scans ⟨.string :: modes, p, run ++ c :: cs⟩ ts ⟨.string :: modes, q, c :: cs⟩ ∧
      ∀ us ds, Spells us ds → Spells (ts ++ us) (run ++ ds) := by
  by_cases hne : run = []
  · subst hne
    exact ⟨[], p, .nil, fun _ _ h => h⟩
  · exact ⟨_, _, .cons run (firstMatch_chars hrun hne hc cs) .nil, fun _ _ h => .chars h⟩

/-- The characters of `run` stand before the others and are read with them. -/
theorem scans_escape (hrun : ∀ d ∈ run, isSpecial d = false) (cs rest : List Char) :
    ∃ ts q, Scans ⟨.string :: modes, p, run ++ escape cs ++ '"' :: rest⟩ ts
      ⟨.string :: modes, q, '"' :: rest⟩ ∧ Spells ts (run ++ cs) := by
  induction cs generalizing p run with
  | nil =>
    obtain ⟨ts, q, hscans, hspells⟩ := scans_run modes p hrun (c := '"') rfl rest
    exact ⟨ts, q, by simpa [escape] using hscans, by simpa using hspells [] [] .nil⟩
  | cons c cs ih =>
    cases hc : isSpecial c with
    | false =>
      have hrun' : ∀ d ∈ run ++ [c], isSpecial d = false := fun d hd =>
        (List.mem_append.mp hd).elim (hrun d) fun hd => List.mem_singleton.mp hd ▸ hc
      obtain ⟨ts, q, hscans, hspells⟩ := ih p hrun'
      exact ⟨ts, q, by simpa [escape, hc] using hscans, by simpa using hspells⟩
    | true =>
      obtain ⟨ts, q, hscans, hspells⟩ := scans_run modes p hrun (c := '\\') rfl
        (c :: (escape cs ++ '"' :: rest))
      have hnone : ∀ d ∈ ([] : List Char), isSpecial d = false := nofun
      obtain ⟨us, q', hscans', hspells'⟩ := ih (q.advance ['\\', c]) hnone
      have hmatch : firstMatch stringRules ('\\' :: c :: (escape cs ++ '"' :: rest)) =
          some (⟨.escaped, escaped, .stay⟩, ['\\', c]) := by
        have hne : c ≠ '\n' := by
          rintro rfl
          cases hc
        simp [stringRules, firstMatch, escaped, hne]
      have hall := hscans.trans (.cons ['\\', c] hmatch hscans')
      exact ⟨_, q', by simpa [escape, hc] using hall, hspells _ _ (.escaped hc hspells')⟩

theorem scans_front (rest : List Char) : ∃ ts q, Scans
    ⟨[.root], p, "library t;\nvar x = \"".toList ++ rest⟩ ts ⟨[.string, .root], q, rest⟩ ∧
    ∃ p1 p2 p3 p4 p5 p6 p7, significant ts = [⟨.keyword, "library", p1⟩, ⟨.ident, "t", p2⟩,
      ⟨.operator, ";", p3⟩, ⟨.keyword, "var", p4⟩, ⟨.ident, "x", p5⟩, ⟨.operator, "=", p6⟩,
      ⟨.stringStart, "\"", p7⟩] :=
  ⟨_, _, .cons "library".toList rfl (.cons [' '] rfl (.cons ['t'] rfl (.cons [';'] rfl
    (.cons ['\n'] rfl (.cons "var".toList rfl (.cons [' '] rfl (.cons ['x'] rfl (.cons [' '] rfl
    (.cons ['='] rfl (.cons [' '] rfl (.cons ['"'] rfl .nil))))))))))), _, _, _, _, _, _, _, rfl⟩

theorem scans_back : ∃ ts q, Scans ⟨[.string, .root], p, ['"', ';']⟩ ts ⟨[.root], q, []⟩ ∧
    ∃ p1 p2, significant ts = [⟨.stringEnd, "\"", p1⟩, ⟨.operator, ";", p2⟩] :=
  ⟨_, _, .cons ['"'] rfl (.cons [';'] rfl .nil), _, _, rfl⟩

theorem significant_spells {ts : List Token} {cs : List Char} (h : Spells ts cs) : significant ts = ts := by
  induction h <;> simp_all [significant, Token.isSkipped]

end Lexer

namespace Grammar

open Surface (build)

variable {n : Nat} {p q : Position} {ts rest : List Token} {cs : List Char}

/-- The part of a string literal that a token is. -/
def part (t : Token) : Surface.StringPart :=
  if t.kind = .escaped then .escaped t.position t.text else .chars t.position t.text

theorem reads_part {t : Token} (h : t.kind = .chars ∨ t.kind = .escaped) :
    Reads n .stringPart (t :: rest) (.part (part t)) rest := by
  obtain ⟨kind, text, p⟩ := t
  have htext : String.join [text] = text := by simp [String.join]
  rcases h with rfl | rfl
  · exact ⟨_, .this (.keep (.token rfl)), congrArg (Except.ok ∘ Surface.Piece.part ∘ .chars p) htext⟩
  · exact ⟨_, .later fits_ahead rfl (.this (.keep (.token rfl))),
      congrArg (Except.ok ∘ Surface.Piece.part ∘ .escaped p) htext⟩

theorem loops_parts (h : Spells ts cs) :
    Loops (n + 1) none (sub .parts .stringPart) (ts ++ ⟨.stringEnd, "\"", q⟩ :: rest)
      (ts.map fun t => (.parts, .piece (.part (part t)))) (⟨.stringEnd, "\"", q⟩ :: rest) := by
  induction h with
  | nil => exact .nil fits_ahead rfl
  | chars _ ih => exact .cons (.keep (.rule (reads_part (.inl rfl)) (Nat.lt_succ_self n))) (by simp) ih
  | escaped _ _ ih => exact .cons (.keep (.rule (reads_part (.inr rfl)) (Nat.lt_succ_self n))) (by simp) ih

theorem reads_string (h : Spells ts cs) :
    Reads 1 .stringLit (⟨.stringStart, "\"", p⟩ :: (ts ++ ⟨.stringEnd, "\"", q⟩ :: rest))
      (.primary (.string p (ts.map part))) rest := by
  refine ⟨_, .cons (.token rfl) (.cons (.many (loops_parts (n := 0) h)) (.cons (.token rfl) .nil)), ?_⟩
  refine congrArg (Except.ok ∘ Surface.Piece.primary ∘ .string p) ?_
  simp [Surface.Kept.pieces, keepUnder, List.filterMap_map, Function.comp_def]

/-- The tokens of a library with one member. -/
theorem reads_library (p1 p2 p3 : Position) {p4 : Position} {t : Token} {m : Surface.Member}
    (h : Reads n .member (t :: ts) (.member m) [⟨.eof, "", p4⟩]) (hts : 0 < ts.length)
    (hclass : Rule.rejects (ahead t.kind t.text) sight .classDecl = true) :
    Reads (n + 2) .program (⟨.keyword, "library", p1⟩ :: ⟨.ident, "t", p2⟩ :: ⟨.operator, ";", p3⟩ ::
      t :: ts) (.program ⟨p1, "t", [.member m]⟩) [⟨.eof, "", p4⟩] := by
  have hdeclaration : Reads (n + 1) .declaration (t :: ts) (.declaration (.member m)) _ :=
    ⟨_, .later fits_ahead hclass (.this (.keep (.rule h (by omega)))), rfl⟩
  exact ⟨_, .cons .keyword (.cons (.keep (.token rfl)) (.cons .operator (.cons (.many (.cons
    (.keep (.rule hdeclaration (by omega))) (Nat.succ_lt_succ hts) (.nil fits_ahead rfl))) .nil))), rfl⟩

theorem reads_field (p4 p5 p6 : Position) {p7 p8 : Position} {e : Surface.Expr}
    (h : Reads n .expr ts (.expr e) [⟨.operator, ";", p7⟩, ⟨.eof, "", p8⟩]) :
    Reads (n + 2) .member (⟨.keyword, "var", p4⟩ :: ⟨.ident, "x", p5⟩ :: ⟨.operator, "=", p6⟩ :: ts)
      (.member ⟨p4, false, false, .field p4 .var "x" (some e)⟩) [⟨.eof, "", p8⟩] := by
  have hfield : Reads (n + 1) .field
      (⟨.keyword, "var", p4⟩ :: ⟨.ident, "x", p5⟩ :: ⟨.operator, "=", p6⟩ :: ts)
      (.shape (.field p4 .var "x" (some e))) [⟨.eof, "", p8⟩] :=
    ⟨_, .cons (.oneOf (by decide) (by decide)) (.cons (.keep (.token rfl)) (.cons (.optional
      (.cons .operator (.cons (.keep (.rule h (by omega))) .nil))) (.cons .operator .nil))), rfl⟩
  exact ⟨_, .cons (.skip fits_ahead rfl) (.cons (.skip fits_ahead rfl) (.cons (.once (.later fits_ahead
    rfl (.this (.keep (.rule hfield (by omega)))))) .nil)), rfl⟩

theorem program?_of_reads {tokens : List Token} {t : Token} {program : Surface.Program}
    (h : Reads n .program (Lexer.significant tokens) (.program program) [t]) (ht : t.isEof = true)
    (hn : n + sight < rulesPerToken * ((Lexer.significant tokens).length + 1)) :
    program? tokens = .ok program := by
  rw [Lexer.significant] at h hn
  obtain ⟨kept, hmatches, hbuild⟩ := h
  generalize hfuel : rulesPerToken * ((tokens.filter fun t => !t.isSkipped).length + 1) = fuel at hn
  obtain ⟨fuel, rfl⟩ : ∃ k, fuel = k + 1 := ⟨fuel - 1, by omega⟩
  obtain ⟨c', hrun, hrest⟩ := hmatches fuel (by omega) { rest := tokens.filter fun t => !t.isSkipped } rfl
  simp only [program?, hfuel, Rule.run, hrun, Cursor.next, hbuild, hrest, List.headD_cons, ht, if_true]

end Grammar

namespace Resolve

theorem unescape_special {c : Char} (h : isSpecial c = true) :
    unescape (String.ofList ['\\', c]) = String.ofList [c] := by
  simp only [isSpecial, Bool.or_eq_true, beq_iff_eq] at h
  rcases h with (rfl | rfl) | rfl <;> rfl

theorem resolveParts_spells {ts : List Token} {cs : List Char} (h : Spells ts cs) (p : Pieces) :
    resolveParts p (ts.map Grammar.part) = pure { p with text := p.text ++ String.ofList cs } := by
  induction h generalizing p with
  | nil =>
    rw [List.map_nil, resolveParts]
    simp
  | chars _ ih =>
    rw [List.map_cons, Grammar.part, if_neg (by simp), resolveParts, ih]
    simp [String.append_assoc]
  | escaped hc _ ih =>
    rw [List.map_cons, Grammar.part, if_pos rfl, resolveParts, ih, unescape_special hc,
      String.append_assoc, ← String.ofList_append]
    rfl

theorem resolve_spells {ts : List Token} {cs : List Char} (h : Spells ts cs) (place : Position) :
    resolveExpr (.chain (.string place (ts.map Grammar.part)) []) =
      pure (.string place (String.ofList cs)) := by
  have hexpr : Pieces.expr { text := String.ofList cs, textPlace := place } place =
      .string place (String.ofList cs) := by
    by_cases hcs : String.ofList cs = "" <;> simp [Pieces.expr, Pieces.flush, hcs]
  rw [resolveExpr, resolveHead, resolveParts_spells h, String.empty_append]
  exact congrArg (pure (f := ResolveM)) hexpr

/-- A field whose initializer is resolved to a value by itself. -/
theorem resolveProgram_field {e : Surface.Expr} {x : Tree.Expr} (h : resolveExpr e = pure x)
    (p q : Position) (s : State) :
    let r := resolveProgram ⟨p, "t", [.member ⟨q, false, false, .field q .var "x" (some e)⟩]⟩ s
    r.2.2 = [] ∧ r.1.fields.map (·.initializer) = [some x] := by
  have hfield : resolveField q .var "x" false (some e) = do
      return { id := ← freshId, place := q, name := "x", isStatic := false, isConst := false,
               isFinal := false, initializer := some x } := by
    rw [resolveField, resolveOption, h]
    rfl
  simp only [resolveProgram, List.foldlM_cons, resolveDeclaration, resolveMember, hfield]
  exact ⟨rfl, rfl⟩

end Resolve

open Grammar

theorem parse_literal (file s : String) : ∃ p q r ts, Spells ts s.toList ∧
    Surface.parse file ("library t;\nvar x = \"" ++ String.ofList (escape s.toList) ++ "\";") =
      .ok ⟨p, "t", [.member ⟨q, false, false,
        .field q .var "x" (some (.chain (.string r (ts.map part)) []))⟩]⟩ := by
  have hsource : ("library t;\nvar x = \"" ++ String.ofList (escape s.toList) ++ "\";").toList =
      "library t;\nvar x = \"".toList ++ (escape s.toList ++ ['"', ';']) := by simp
  obtain ⟨front, q1, hfront, p1, p2, p3, p4, p5, p6, p7, hfront'⟩ :=
    Lexer.scans_front { file, line := 1, column := 1 } (escape s.toList ++ ['"', ';'])
  have hnone : ∀ d ∈ ([] : List Char), isSpecial d = false := nofun
  obtain ⟨ts, q2, hscans, hspells⟩ := Lexer.scans_escape [.root] q1 hnone s.toList [';']
  obtain ⟨back, q3, hback, p8, p9, hback'⟩ := Lexer.scans_back q2
  have hall := hfront.trans (hscans.trans hback)
  rw [← hsource] at hall
  have hstring : Reads 1 .stringLit _ _ [⟨.operator, ";", p9⟩, ⟨.eof, "", q3⟩] :=
    reads_string (p := p7) (q := p8) hspells
  have hunary := reads_operand 6 rfl fits_ahead rfl (.keep (.rule hstring (Nat.lt_succ_self 1))) rfl
    fits_ahead rfl
  have hend : ∀ j < 10,
      (tail j).passes (ahead .operator ";") (Rule.rejects (ahead .operator ";") sight) = true := by decide
  have hexpr := Reads.climb (i := 0) (k := 10) hunary (by decide) (by decide) fits_ahead hend
  have hprogram := reads_library p1 p2 p3 (reads_field p4 p5 p6 hexpr) (by simp) rfl
  have hsignificant : ⟨.keyword, "library", p1⟩ :: ⟨.ident, "t", p2⟩ :: ⟨.operator, ";", p3⟩ ::
      ⟨.keyword, "var", p4⟩ :: ⟨.ident, "x", p5⟩ :: ⟨.operator, "=", p6⟩ :: ⟨.stringStart, "\"", p7⟩ ::
      (ts ++ ⟨.stringEnd, "\"", p8⟩ :: [⟨.operator, ";", p9⟩, ⟨.eof, "", q3⟩]) =
      Lexer.significant (front ++ (ts ++ back) ++ [⟨.eof, "", q3⟩]) := by
    simp only [Lexer.significant, List.filter_append] at hfront' hback' ⊢
    rw [hfront', hback', ← Lexer.significant, Lexer.significant_spells hspells]
    simp [Token.isSkipped]
  rw [hsignificant] at hprogram
  refine ⟨p1, p4, p7, ts, hspells, ?_⟩
  rw [Surface.parse, Lexer.tokens?_of_scans hall rfl]
  have hfuel (k : Nat) : 18 + sight < rulesPerToken * (k + 1) := by
    simp only [sight, rulesPerToken]
    omega
  exact congrArg (Except.mapError _) (program?_of_reads hprogram rfl (hfuel _))

/-- Every text can be written as the initializer of a field. -/
theorem Reading.ofSource_literal (file s : String) : ∃ library place,
    Reading.ofSource file ("library t;\nvar x = \"" ++ String.ofList (escape s.toList) ++ "\";") =
      ⟨some library, []⟩ ∧ library.fields.map (·.initializer) = [some (.string place s)] := by
  obtain ⟨p, q, place, ts, hspells, hparse⟩ := parse_literal file s
  obtain ⟨hdiagnostics, hfields⟩ := Resolve.resolveProgram_field
    (Resolve.resolve_spells hspells place) p q { nextId := 0 }
  rw [String.ofList_toList] at hfields
  refine ⟨_, place, ?_, hfields⟩
  rw [Reading.ofSource, Reading.ofSourceFrom, hparse]
  exact congrArg (Reading.mk _) hdiagnostics

end Flowgraph
