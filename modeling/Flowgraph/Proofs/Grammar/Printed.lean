import Flowgraph.Proofs.Grammar.Literal
import Flowgraph.Proofs.Grammar.Operation
import Flowgraph.Proofs.Token.Numeral

/-! # The text of an operation

Printing puts parentheses around what has an operator between operands, so that every
operand is written as one of the lowest level.
-/

namespace Flowgraph

namespace Lexer

theorem lexes_word {w : String} (hw : word w.toList = w.toList) (hne : w ≠ "") :
    Lexes w.toList (One (if w ∈ keywords then .keyword else .ident) w) := by
  have hne' : w.toList ≠ [] := fun h => hne (String.toList_eq_nil_iff.mp h)
  have hstarts : ∃ c cs, w.toList = c :: cs ∧ isBlank c = false ∧ c ≠ '=' := by
    obtain ⟨c, cs, hcs⟩ := List.exists_cons_of_ne_nil hne'
    have hc := isWordStart_of_word (hcs ▸ hw)
    exact ⟨c, cs, hcs, isBlank_of_isWord (isWord_of_isWordStart hc),
      ne_of_isWord (isWord_of_isWordStart hc) (by decide)⟩
  have hmatch (cs : List Char) (hcs : Breaks cs) := firstMatch_word hw hne' hcs
  rw [String.ofList_toList] at hmatch
  by_cases hk : w ∈ keywords
  · simp only [if_pos hk] at hmatch ⊢
    exact .one hstarts (by decide) hmatch
  · simp only [if_neg hk] at hmatch ⊢
    exact .one hstarts (by decide) hmatch

theorem lexes_keyword {w : String} (hw : w ∈ keywords) : Lexes w.toList (One .keyword w) := by
  obtain ⟨hword, hne⟩ := (by decide : ∀ w ∈ keywords, word w.toList = w.toList ∧ w ≠ "") w hw
  have h := lexes_word hword hne
  rwa [if_pos hw] at h

theorem lexes_name {w : String} (hw : IsName w) : Lexes w.toList (One .ident w) := by
  have h := lexes_word hw.2.2 hw.2.1
  rwa [if_neg hw.1] at h

/-- The operators that stand between operands. -/
def between : List String := Tree.infixOperators ++ ["&&", "||", "??", "?", ":"]

theorem Lexes.between {op : String} {text text' : List Char} {P Q : List Token → Prop}
    (h : Lexes text P) (hop : op ∈ between) (h' : Lexes text' Q) :
    Lexes (text ++ ' ' :: (op.toList ++ ' ' :: text')) (Both P (Both (One .operator op) Q)) where
  starts := by
    obtain ⟨c, cs, rfl, hc⟩ := h.starts
    exact ⟨c, _, rfl, hc⟩
  scans p cs hcs := by
    have hblank : firstMatch rootRules (' ' :: (op.toList ++ ' ' :: (text' ++ cs))) =
        some (⟨.whitespace, (·.takeWhile isBlank), .stay⟩, [' ']) ∧
        firstMatch rootRules (op.toList ++ ' ' :: (text' ++ cs)) =
          some (⟨.operator, operator, .stay⟩, op.toList) := by
      simp only [Lexer.between, Tree.infixOperators, List.cons_append, List.nil_append, List.mem_cons,
        List.not_mem_nil, or_false] at hop
      rcases hop with rfl | rfl | rfl | rfl | rfl | rfl | rfl | rfl | rfl | rfl | rfl | rfl | rfl | rfl |
        rfl | rfl | rfl | rfl | rfl <;> exact ⟨rfl, rfl⟩
    obtain ⟨ts, q, hscans, hts⟩ := h.scans p (' ' :: (op.toList ++ ' ' :: (text' ++ cs)))
      (breaks_cons (by decide))
    obtain ⟨ts', q', hscans', hts'⟩ := h'.scans (((q.advance [' ']).advance op.toList).advance [' ']) cs hcs
    obtain ⟨c, text', rfl, hc, -⟩ := h'.starts
    have hall := hscans.trans (.cons [' '] hblank.1 (.cons op.toList hblank.2
      (.cons [' '] (firstMatch_blank hc) hscans')))
    refine ⟨_, q', by simpa using hall, significant ts, _, ?_, hts, _, significant ts', rfl,
      ⟨q.advance [' '], rfl⟩, hts'⟩
    simp [significant, Token.isSkipped]

theorem lexes_integer {n : Int64} (hn : 0 ≤ n.toInt) :
    Lexes (toString n.toInt).toList (One .integer (toString n.toInt)) := by
  obtain ⟨hne, hdigits⟩ := Decimal.digits_toString hn
  refine .one ?_ (by decide) fun cs hcs => firstMatch_integer hdigits hne hcs
  obtain ⟨c, cs, hcs⟩ := List.exists_cons_of_ne_nil hne
  have hc := isWord_of_isDigit (hdigits c (hcs ▸ List.mem_cons_self))
  exact ⟨c, cs, hcs, isBlank_of_isWord hc, ne_of_isWord hc (by decide)⟩

end Lexer

namespace Reading

open Lexer
open Tree (Ref Alike IsOperation)
open Tree.Expr (unplaced)

variable {vars : List Ref} {e f g : Tree.Expr} {s t : String}

theorem lexes_parens (h : Lexes s.toList (Written vars 10 e)) :
    Lexes (Tree.parens s).toList (Written vars 0 e) := by
  have htext : (Tree.parens s).toList = '(' :: (s.toList ++ [')']) := by simp [Tree.parens]
  rw [htext]
  refine ((h.before (by decide) (by decide)).after (by decide)).imp ?_
  rintro _ ⟨_, _, rfl, ⟨q, rfl⟩, us, _, rfl, hus, q', rfl⟩
  exact hus.parens

theorem lexes_infix {op : String} (hop : op ∈ between) (he : Lexes s.toList (Written vars 0 e))
    (hf : Lexes t.toList (Written vars 0 f)) (hg : ∀ us vs q, Written vars 0 e us →
      Written vars 0 f vs → Written vars 10 g (us ++ ⟨.operator, op, q⟩ :: vs)) :
    Lexes (Tree.parens (s ++ " " ++ op ++ " " ++ t)).toList (Written vars 0 g) := by
  refine lexes_parens ?_
  have htext : (s ++ " " ++ op ++ " " ++ t).toList = s.toList ++ ' ' :: (op.toList ++ ' ' :: t.toList) := by
    simp
  rw [htext]
  refine (he.between hop hf).imp ?_
  rintro _ ⟨us, _, rfl, hus, _, vs, rfl, ⟨q, rfl⟩, hvs⟩
  exact hg us vs q hus hvs

theorem lexes_sign {c : Char} (hc : c ∈ ['-', '!']) (he : Lexes s.toList (Written vars 0 e))
    (hg : ∀ p e', Alike e e' → Alike g (Resolve.unary p (String.ofList [c]) e')) :
    Lexes (c :: s.toList) (Written vars 0 g) := by
  have hbefore : c ∈ ['(', '[', '-', '!'] := by simp_all
  have hsign : String.ofList [c] ∈ ["!", "-", "~"] := by
    rcases List.mem_pair.mp hc with rfl | rfl <;> decide
  refine (he.after hbefore).imp ?_
  rintro _ ⟨_, us, rfl, ⟨q, rfl⟩, hus⟩
  exact hus.signed hsign hg

theorem lexes_typed {word name : String} {p : Position} (hname : IsName name)
    (he : Lexes s.toList (Written vars 0 e))
    (hword : word = "is" ∧ g = .isType p e name ∨ word = "as" ∧ g = .asType p e name) :
    Lexes (Tree.parens (s ++ " " ++ word ++ " " ++ name)).toList (Written vars 0 g) := by
  refine lexes_parens ?_
  have htext : (s ++ " " ++ word ++ " " ++ name).toList =
      (s.toList ++ ' ' :: word.toList) ++ ' ' :: name.toList := by simp
  have hkeyword : word ∈ keywords := by
    rcases hword with ⟨rfl, -⟩ | ⟨rfl, -⟩ <;> decide
  rw [htext]
  refine ((he.join (lexes_keyword hkeyword)).join (lexes_name hname)).imp ?_
  rintro _ ⟨_, _, rfl, ⟨us, _, rfl, hus, q, rfl⟩, q', rfl⟩
  rw [List.append_assoc]
  exact hus.typed hword

theorem lexes_commas {es : List Tree.Expr} (hne : es ≠ [])
    (hes : ∀ e ∈ es, Lexes e.render.toList (Written vars 0 e)) :
    Lexes (Tree.commas (Tree.renderAll es)).toList (Listed vars es) := by
  induction es with
  | nil => exact absurd rfl hne
  | cons e es ih =>
    have he := hes e (by simp)
    cases es with
    | nil =>
      have htext : (Tree.commas (Tree.renderAll [e])).toList = e.render.toList := by
        simp [Tree.renderAll, Tree.commas]
      rw [htext]
      exact he.imp fun us hus => .one (hus.climb (by decide) (by decide))
    | cons f es =>
      have htext : (Tree.commas (Tree.renderAll (e :: f :: es))).toList =
          (e.render.toList ++ [',']) ++ ' ' :: (Tree.commas (Tree.renderAll (f :: es))).toList := by
        simp [Tree.renderAll, Tree.commas, String.intercalate_cons_cons]
      rw [htext]
      have hrest := ih (by simp) fun g hg => hes g (by simp_all)
      refine ((he.before (by decide) (by decide)).join hrest).imp ?_
      rintro _ ⟨_, vs, rfl, ⟨us, _, rfl, hus, q, rfl⟩, hvs⟩
      rw [List.append_assoc]
      exact .cons (hus.climb (by decide) (by decide)) hvs

theorem isLoose_operation (h : IsOperation vars e) : e.isLoose = false := by
  cases h <;> rfl

theorem lexes_nil : Lexes ['[', ']'] fun ts => ∃ q q',
    ts = [⟨.operator, "[", q⟩, ⟨.operator, "]", q'⟩] where
  starts := ⟨'[', [']'], rfl, by decide⟩
  scans p cs _ := ⟨_, _, .cons ['['] rfl (.cons [']'] rfl .nil), p, _, rfl⟩

/-- A minus in front of what is no literal is not part of it. -/
theorem alike_negate {e' : Tree.Expr} {p q : Position} (hint : ∀ q n, e ≠ .int q n)
    (h : IsOperation vars e) (he : Alike e e') :
    Alike (.methodCall p e "unary-" ⟨[], []⟩) (Resolve.unary q "-" e') := by
  have hint' (r : Position) (n : Int64) : e' ≠ .int r n := by
    rintro rfl
    cases h with
    | int => exact hint _ _ rfl
    | _ => simp [Alike, unplaced] at he
  have hdouble (r : Position) (x : Float) : e' ≠ .double r x := by
    rintro rfl
    cases h <;> simp [Alike, unplaced] at he
  have hcall : Resolve.unary q "-" e' = .methodCall q e' "unary-" ⟨[], []⟩ := by
    simp [Resolve.unary, Resolve.invoke]
  rw [hcall]
  simp only [Alike, unplaced, he.eq]

theorem lexes_render (hvars : ∀ v ∈ vars, IsName v.name) (h : IsOperation vars e) :
    Lexes e.render.toList (Written vars 0 e) := by
  induction h with
  | null =>
    refine (lexes_keyword (w := "null") (by decide)).imp ?_
    rintro _ ⟨q, rfl⟩
    exact written_null
  | @bool p b =>
    refine (lexes_keyword (w := if b then "true" else "false") (by cases b <;> decide)).imp ?_
    rintro _ ⟨q, rfl⟩
    exact written_bool b
  | int hn =>
    refine (lexes_integer hn).imp ?_
    rintro _ ⟨q, rfl⟩
    have hplain : ∀ w ∈ keywords ++ operators, ¬w.toList.all Char.isDigit = true := by decide
    have hdigits := List.all_eq_true.mpr (Decimal.digits_toString hn).2
    exact written_int (fun h => hplain _ h hdigits) (Decimal.readInteger_toString hn)
  | get hv =>
    refine (lexes_name (hvars _ hv)).imp ?_
    rintro _ ⟨q, rfl⟩
    exact written_get hv (hvars _ hv)
  | @list p es _ ih =>
    have htext : (Tree.Expr.render (.list p es false)).toList =
        '[' :: ((Tree.commas (Tree.renderAll es)).toList ++ [']']) := by
      simp [Tree.Expr.render, Tree.constWord]
    rw [htext]
    by_cases hne : es = []
    · subst hne
      exact lexes_nil.imp fun _ ⟨q, q', h⟩ => h ▸ written_nil
    · refine (((lexes_commas hne ih).before (by decide) (by decide)).after (by decide)).imp ?_
      rintro _ ⟨_, _, rfl, ⟨q, rfl⟩, us, _, rfl, hus, q', rfl⟩
      exact hus.list
  | @binary p op a b hop _ _ iha ihb =>
    have htext : Tree.Expr.render (.methodCall p a op ⟨[b], []⟩) =
        Tree.parens (a.render ++ " " ++ op ++ " " ++ b.render) := by
      have hprinted : op ≠ "unary-" ∧ op ∈ Tree.binaryOperators :=
        (by decide : ∀ op ∈ Tree.infixOperators, op ≠ "unary-" ∧ op ∈ Tree.binaryOperators) op hop
      simp [Tree.Expr.render, Tree.renderAll, hprinted]
    rw [htext]
    exact lexes_infix (List.mem_append_left _ hop) iha ihb fun us vs q hus hvs => hus.binary hop hvs
  | @negate p a hint ha ih =>
    have htext : (Tree.Expr.render (.methodCall p a "unary-" ⟨[], []⟩)).toList = '-' :: a.render.toList := by
      simp [Tree.Expr.render, Tree.loosely, isLoose_operation ha]
    rw [htext]
    exact lexes_sign (by decide) ih fun q e' he => alike_negate hint ha he
  | @not p a ha ih =>
    have htext : (Tree.Expr.render (.not p a)).toList = '!' :: a.render.toList := by
      simp [Tree.Expr.render, Tree.loosely, isLoose_operation ha]
    rw [htext]
    exact lexes_sign (by decide) ih fun q e' he => congrArg (Tree.Expr.not .unknown) he
  | @logical p op a b _ _ iha ihb =>
    rw [Tree.Expr.render]
    exact lexes_infix (by cases op <;> decide) iha ihb fun us vs q hus hvs => hus.logical hvs
  | @conditional p a b c _ _ _ iha ihb ihc =>
    rw [Tree.Expr.render]
    refine lexes_parens ?_
    have htext : (a.render ++ " ? " ++ b.render ++ " : " ++ c.render).toList =
        a.render.toList ++ ' ' :: ("?".toList ++ ' ' ::
          (b.render.toList ++ ' ' :: (":".toList ++ ' ' :: c.render.toList))) := by simp
    rw [htext]
    refine (iha.between (by decide) (ihb.between (by decide) ihc)).imp ?_
    rintro _ ⟨us, _, rfl, hus, _, _, rfl, ⟨q, rfl⟩, vs, _, rfl, hvs, _, ws, rfl, ⟨q', rfl⟩, hws⟩
    exact hus.conditional hvs hws
  | @isType p a name hname _ ih =>
    have htext : Tree.Expr.render (.isType p a name) = Tree.parens (a.render ++ " " ++ "is" ++ " " ++ name) := by
      simp [Tree.Expr.render, String.append_assoc]
    rw [htext]
    exact lexes_typed hname ih (.inl ⟨rfl, rfl⟩)
  | @asType p a name hname _ ih =>
    have htext : Tree.Expr.render (.asType p a name) = Tree.parens (a.render ++ " " ++ "as" ++ " " ++ name) := by
      simp [Tree.Expr.render, String.append_assoc]
    rw [htext]
    exact lexes_typed hname ih (.inr ⟨rfl, rfl⟩)

end Reading

end Flowgraph
