import Flowgraph.Proofs.Grammar.Derivation

/-! # Levels of operators

Between unary and whole expressions each level reads an operand of the level below and
then, perhaps, an operator and another operand.
-/

namespace Flowgraph.Grammar

open Surface (Piece build)

/-- The kind and the text of the next token are known. -/
def ahead (kind : TokenKind) (text : String) : Ahead := ⟨kind, (· ≠ text)⟩

theorem fits_ahead {t : Token} : (ahead t.kind t.text).Fits t where
  kind := rfl
  text _ h := (of_decide_eq_true h).symm

variable {m n : Nat} {slot : Option Slot} {ts mid rest : List Token} {piece : Piece}
  {e l r : Surface.Expr} {a : Ahead}

theorem Reads.mono {r : Rule} (h : Reads m r ts piece rest) (hm : m ≤ n) : Reads n r ts piece rest := by
  obtain ⟨kept, h, hbuild⟩ := h
  exact ⟨kept, fun fuel hn => h fuel (by omega), hbuild⟩

theorem Matches.oneOf {s : Slot} {kind : TokenKind} {text : String} {q : Position}
    {texts : List String} (hkind : kind ≠ .eof) (hmem : text ∈ texts) :
    Matches n slot (oneOf s texts) (⟨kind, text, q⟩ :: ts) [(s, .token ⟨kind, text, q⟩)] ts := by
  refine .keep (.once ?_)
  induction texts with
  | nil => cases hmem
  | cons other texts ih =>
    by_cases htext : text = other
    · exact .this (.literal htext hkind)
    · have hlater : text ∈ texts := (List.mem_cons.mp hmem).resolve_left htext
      exact .later fits_ahead (decide_eq_true (Ne.symm htext)) (ih hlater)

/-- The levels, from unary to whole expressions. -/
def rung : Nat → Rule
  | 0 => .unary
  | 1 => .multiplicative
  | 2 => .additive
  | 3 => .bitwise
  | 4 => .relational
  | 5 => .equality
  | 6 => .and
  | 7 => .or
  | 8 => .ifNull
  | 9 => .conditional
  | _ => .expr

/-- What may follow an operand of a level on the next level. -/
def tail : Nat → Pattern
  | 0 => many (sub .rest .multiplicativeOp)
  | 1 => many (sub .rest .additiveOp)
  | 2 => many (sub .rest .bitwiseOp)
  | 3 => opt (.choice [.seq [oneOf .op ["<=", ">=", "<", ">"], sub .right .bitwise],
      .seq ["is", ident .isType], .seq ["as", ident .asType]])
  | 4 => opt (.seq [oneOf .op ["===", "!==", "==", "!="], sub .right .relational])
  | 5 => many (.seq ["&&", sub .rest .equality])
  | 6 => many (.seq ["||", sub .rest .and])
  | 7 => many (.seq ["??", sub .rest .or])
  | 8 => opt (.seq ["?", sub .yes .expr, ":", sub .no .expr])
  | _ => opt (.seq ["=", sub .value .expr])

theorem pattern_rung (i : Nat) (hi : i < 10) : ∃ slot,
    (rung (i + 1)).pattern = .seq [sub slot (rung i), tail i] ∧
      ∀ p e, build (rung (i + 1)) p [(slot, .piece (.expr e))] = .ok (.expr e) := by
  match i, hi with
  | 0, _ | 1, _ | 2, _ | 3, _ | 4, _ | 5, _ | 6, _ | 7, _ | 8, _ | 9, _ =>
    exact ⟨_, rfl, fun _ _ => rfl⟩

/-- An operand is an expression of all levels up to one whose operators may follow it. -/
theorem Reads.climb {i k : Nat} (h : Reads (n + i) (rung i) ts (.expr e) rest) (hik : i ≤ k)
    (hk : k ≤ 10) (ha : a.Fits (rest.headD default))
    (hp : ∀ j < k, (tail j).passes a (Rule.rejects a sight) = true) :
    Reads (n + k) (rung k) ts (.expr e) rest := by
  induction k with
  | zero =>
    obtain rfl : i = 0 := Nat.le_zero.mp hik
    exact h
  | succ k ih =>
    rcases Nat.lt_or_eq_of_le hik with hlt | rfl
    · obtain ⟨slot, hpattern, hbuild⟩ := pattern_rung k (by omega)
      have hlower := ih (by omega) (by omega) fun j hj => hp j (by omega)
      refine ⟨_, ?_, hbuild _ e⟩
      rw [hpattern]
      exact .cons (.keep (.rule hlower (by omega))) (.cons (.skip ha (hp k (by omega))) .nil)
    · exact h

/-! ## Operators between operands -/

/-- The operators that take two operands of a level. -/
def symbols : Nat → List String
  | 0 => ["*", "/", "%", "~/"]
  | 1 => ["+", "-"]
  | 2 => ["&", "|", "^"]
  | 3 => ["<=", ">=", "<", ">"]
  | 4 => ["===", "!==", "==", "!="]
  | 5 => ["&&"]
  | 6 => ["||"]
  | 7 => ["??"]
  | _ => []

/-- What an operator of a level makes of its operands. -/
def combine (i : Nat) (p : Position) (op : String) (l r : Surface.Expr) : Surface.Expr :=
  match i with
  | 5 => .logical p .and l r
  | 6 => .logical p .or l r
  | 7 => .logical p .ifNull l r
  | _ => .binary p op l r

theorem Reads.combine {i : Nat} {op : String} {q : Position} (hop : op ∈ symbols i)
    (hl : Reads n (rung i) ts (.expr l) (⟨.operator, op, q⟩ :: mid))
    (hr : Reads n (rung i) mid (.expr r) rest) (hmid : rest.length ≤ mid.length)
    (ha : a.Fits (rest.headD default)) (hp : (tail i).passes a (Rule.rejects a sight) = true) :
    ∃ p, Reads (n + 2) (rung (i + 1)) ts (.expr (combine i p op l r)) rest := by
  have hleft {s : Slot} : Matches (n + 2) none (sub s (rung i)) ts [(s, .piece (.expr l))]
      (⟨.operator, op, q⟩ :: mid) := .keep (.rule hl (by omega))
  have hright {s : Slot} {k : Nat} (hk : n < k) : Matches k none (.seq [sub s (rung i)]) mid
      [(s, .piece (.expr r))] rest := .cons (.keep (.rule hr hk)) .nil
  have hpair {k : Nat} (hk : n < k) : Matches k none
      (.seq [oneOf .op (symbols i), sub .right (rung i)]) (⟨.operator, op, q⟩ :: mid)
        [(.op, .token ⟨.operator, op, q⟩), (.right, .piece (.expr r))] rest :=
    .cons (.oneOf (by decide) hop) (hright hk)
  have htext : String.join [op] = op := by simp [String.join]
  match i with
  | 0 | 1 | 2 =>
    rw [← htext]
    exact ⟨_, _, .cons hleft (.cons (.many (.cons (.keep (.rule ⟨_, hpair (Nat.lt_succ_self n), rfl⟩
      (by omega))) (Nat.lt_succ_of_le hmid) (.nil ha hp))) .nil), rfl⟩
  | 3 =>
    rw [← htext]
    exact ⟨_, _, .cons hleft (.cons (.optional (.this (hpair (by omega)))) .nil), rfl⟩
  | 4 =>
    rw [← htext]
    exact ⟨_, _, .cons hleft (.cons (.optional (hpair (by omega))) .nil), rfl⟩
  | 5 | 6 | 7 =>
    exact ⟨_, _, .cons hleft (.cons (.many (.cons (.cons (.literal (List.mem_singleton.mp hop) (by simp))
      (hright (by omega))) (Nat.lt_succ_of_le hmid) (.nil ha hp))) .nil), rfl⟩

theorem Reads.typed {word : String} {q : Position} {name : Token} (hname : name.kind = .ident)
    {typed : Position → Surface.Expr → String → Surface.Expr}
    (hword : word = "is" ∧ typed = .isType ∨ word = "as" ∧ typed = .asType)
    (hl : Reads n (rung 3) ts (.expr l) (⟨.keyword, word, q⟩ :: name :: rest)) :
    ∃ p, Reads (n + 1) (rung 4) ts (.expr (typed p l name.text)) rest := by
  have hpair : Matches (n + 1) none (.seq [.literal word, ident (if word = "is" then .isType else .asType)])
      (⟨.keyword, word, q⟩ :: name :: rest) _ rest :=
    .cons .keyword (.cons (.keep (.token hname)) .nil)
  have htext : String.join [name.text] = name.text := by simp [String.join]
  rw [← htext]
  rcases hword with ⟨rfl, rfl⟩ | ⟨rfl, rfl⟩
  · exact ⟨_, _, .cons (.keep (.rule hl (by omega))) (.cons (.optional (.later fits_ahead rfl
      (.this hpair))) .nil), rfl⟩
  · exact ⟨_, _, .cons (.keep (.rule hl (by omega))) (.cons (.optional (.later fits_ahead rfl
      (.later fits_ahead rfl (.this hpair)))) .nil), rfl⟩

theorem Reads.conditional {q q' : Position} {mid' : List Token} {c : Surface.Expr}
    (hc : Reads n (rung 8) ts (.expr c) (⟨.operator, "?", q⟩ :: mid))
    (hl : Reads n .expr mid (.expr l) (⟨.operator, ":", q'⟩ :: mid'))
    (hr : Reads n .expr mid' (.expr r) rest) :
    ∃ p, Reads (n + 1) (rung 9) ts (.expr (.conditional p c l r)) rest :=
  ⟨_, _, .cons (.keep (.rule hc (by omega))) (.cons (.optional (.cons .operator
    (.cons (.keep (.rule hl (by omega))) (.cons .operator
      (.cons (.keep (.rule hr (by omega))) .nil))))) .nil), rfl⟩

/-! ## Operands -/

/-- The signs that can stand before an operand. -/
def signs : Pattern := once (.seq [oneOf .op ["!", "-", "~"], sub .operand .unary])

/-- The alternatives of a primary expression. -/
def primaries : List Pattern :=
  match Rule.primary.pattern with
  | .choice ps => ps
  | _ => []

variable {b : Ahead}

theorem reads_operand {p : Pattern} {kept : Surface.Kept} {x : Surface.Primary} (i : Nat)
    (hi : primaries[i]? = some p) (hb : b.Fits (ts.headD default))
    (hrejects : Pattern.rejectsAll b (Rule.rejects b sight) (signs :: primaries.take i) = true)
    (h : Matches n none p ts kept rest)
    (hx : build .primary (ts.headD default).position kept = .ok (.primary x))
    (ha : a.Fits (rest.headD default)) (hsuffix : Rule.rejects a sight .suffix = true) :
    Reads (n + 2) .unary ts (.expr (.chain x [])) rest := by
  obtain ⟨hsigns, hbefore⟩ := Bool.and_eq_true .. ▸ hrejects
  have hprimary : Reads n .primary ts (.primary x) rest := ⟨kept, .choose i hi hb hbefore h, hx⟩
  have hchain : Reads (n + 1) .chain ts (.expr (.chain x [])) rest :=
    ⟨_, .cons (.keep (.rule hprimary (by omega))) (.cons (.skip ha hsuffix) .nil), rfl⟩
  exact ⟨_, .later hb hsigns (.this (.keep (.rule hchain (by omega)))), rfl⟩

end Flowgraph.Grammar
