import Flowgraph.Proofs.Grammar.Level
import Flowgraph.Proofs.Token.Scan
import Flowgraph.Resolve.Library
import Flowgraph.Tree.Printer

/-! # Printed operations

An expression of literals, variables and operators is read again from its text.
-/

namespace Flowgraph

open Tree (Ref)
open Surface (Primary build)

/-- A word that is no keyword. -/
def IsName (s : String) : Prop := s ∉ Lexer.keywords ∧ s ≠ "" ∧ Lexer.word s.toList = s.toList

instance : DecidablePred IsName := fun _ => inferInstanceAs (Decidable (_ ∧ _ ∧ _))

namespace Tree

def infixOperators : List String :=
  ["+", "-", "*", "/", "~/", "%", "==", "<", ">", "<=", ">=", "&", "|", "^"]

/-- An expression of literals, the variables `vars`, operators and type tests. -/
inductive IsOperation (vars : List Ref) : Expr → Prop
  | null {p : Position} : IsOperation vars (.null p)
  | bool {p : Position} {b : Bool} : IsOperation vars (.bool p b)
  | int {p : Position} {n : Int64} : 0 ≤ n.toInt → IsOperation vars (.int p n)
  | get {p : Position} {v : Ref} : v ∈ vars → IsOperation vars (.get p v)
  | list {p : Position} {es : List Expr} : (∀ e ∈ es, IsOperation vars e) →
      IsOperation vars (.list p es false)
  | binary {p : Position} {op : String} {a b : Expr} : op ∈ infixOperators → IsOperation vars a →
      IsOperation vars b → IsOperation vars (.methodCall p a op ⟨[b], []⟩)
  | negate {p : Position} {a : Expr} : (∀ q n, a ≠ .int q n) → IsOperation vars a →
      IsOperation vars (.methodCall p a "unary-" ⟨[], []⟩)
  | not {p : Position} {a : Expr} : IsOperation vars a → IsOperation vars (.not p a)
  | logical {p : Position} {op : LogicalOp} {a b : Expr} : IsOperation vars a → IsOperation vars b →
      IsOperation vars (.logical p op a b)
  | conditional {p : Position} {a b c : Expr} : IsOperation vars a → IsOperation vars b →
      IsOperation vars c → IsOperation vars (.conditional p a b c)
  | isType {p : Position} {a : Expr} {name : String} : IsName name → IsOperation vars a →
      IsOperation vars (.isType p a name)
  | asType {p : Position} {a : Expr} {name : String} : IsName name → IsOperation vars a →
      IsOperation vars (.asType p a name)

mutual

/-- An operation without its places. -/
def Expr.unplaced : Expr → Expr
  | .null _ => .null .unknown
  | .bool _ b => .bool .unknown b
  | .int _ n => .int .unknown n
  | .get _ v => .get .unknown v
  | .list _ elements isConst => .list .unknown (unplacedAll elements) isConst
  | .methodCall _ receiver name ⟨args, named⟩ =>
    .methodCall .unknown receiver.unplaced name ⟨unplacedAll args, named⟩
  | .not _ operand => .not .unknown operand.unplaced
  | .logical _ op left right => .logical .unknown op left.unplaced right.unplaced
  | .conditional _ condition yes no =>
    .conditional .unknown condition.unplaced yes.unplaced no.unplaced
  | .isType _ operand name => .isType .unknown operand.unplaced name
  | .asType _ operand name => .asType .unknown operand.unplaced name
  | e => e

def unplacedAll : List Expr → List Expr
  | [] => []
  | e :: es => e.unplaced :: unplacedAll es

end

/-- The expressions are the same up to places. -/
def Alike (e e' : Expr) : Prop := e'.unplaced = e.unplaced

theorem Alike.eq {e e' : Expr} (h : Alike e e') : e'.unplaced = e.unplaced := h

end Tree

namespace Reading

open Grammar Lexer Resolve
open Tree (Alike unplacedAll)
open Tree.Expr (unplaced)

variable {vars : List Ref} {e f g : Tree.Expr}

/-! ## Resolution -/

/-- The variables are the ones that their names stand for. -/
def Sees (vars : List Ref) (s : State) : Prop := ∀ v ∈ vars, (s.lookup v.name).map (·.ref) = some v

section

variable {α β : Type} {P : α → Prop} {Q : β → Prop}

/-- Resolution finds nothing wrong, keeps the state, and makes something like this. -/
def Gives (vars : List Ref) (m : ResolveM α) (P : α → Prop) : Prop :=
  ∀ s, Sees vars s → ∃ a, m s = (a, s, []) ∧ P a

theorem Gives.pure {a : α} (h : P a) : Gives vars (pure a) P := fun _ _ => ⟨a, rfl, h⟩

theorem bind_eq {m : ResolveM α} {f : α → ResolveM β} {s t : State} {a : α}
    (h : m s = (a, t, [])) : (m >>= f) s = f a t := by
  have hbind : (m >>= f) s = ((f (m s).1 (m s).2.1).1, (f (m s).1 (m s).2.1).2.1,
      (m s).2.2 ++ (f (m s).1 (m s).2.1).2.2) := rfl
  rw [hbind, h]
  rfl

theorem Gives.bind {m : ResolveM α} {f : α → ResolveM β} (h : Gives vars m P)
    (hf : ∀ a, P a → Gives vars (f a) Q) : Gives vars (m >>= f) Q := by
  intro s hs
  obtain ⟨a, hm, ha⟩ := h s hs
  rw [bind_eq hm]
  exact hf a ha s hs

end

/-- The surface stands for the expression. -/
def Means (vars : List Ref) (x : Surface.Expr) (e : Tree.Expr) : Prop :=
  Gives vars (resolveExpr x) (Alike e)

theorem means_chain {x : Primary}
    (h : Gives vars (resolveHead x) fun h => ∃ e', h = .value e' ∧ Alike e e') :
    Means vars (.chain x []) e := by
  rw [Means, resolveExpr]
  refine h.bind ?_
  rintro _ ⟨e', rfl, he⟩
  exact .pure he

theorem means_unary {x : Surface.Expr} {p : Position} {op : String} (h : Means vars x e)
    (hop : ∀ e', Alike e e' → Alike g (unary p op e')) : Means vars (.unary p op x) g := by
  rw [Means, resolveExpr]
  exact h.bind fun e' he => .pure (hop e' he)

/-! ## Operands -/

/-- The next token starts no suffix and no operator of the first `k` levels. -/
def endsAt (a : Ahead) (k : Nat) : Prop :=
  Rule.rejects a sight .suffix = true ∧ ∀ j < k, (tail j).passes a (Rule.rejects a sight) = true

instance (a : Ahead) (k : Nat) : Decidable (endsAt a k) := inferInstanceAs (Decidable (_ ∧ _))

theorem endsAt.mono {a : Ahead} {i k : Nat} (h : endsAt a k) (hik : i ≤ k) : endsAt a i :=
  ⟨h.1, fun j hj => h.2 j (by omega)⟩

/-- The tokens are read on a level as an expression that means `e`, unless what follows goes on
with it. -/
def Written (vars : List Ref) (k : Nat) (e : Tree.Expr) (ts : List Token) : Prop :=
  ∀ rest a, a.Fits (rest.headD default) → endsAt a k →
    ∃ x, Reads (16 * ts.length + k) (rung k) (ts ++ rest) (.expr x) rest ∧ Means vars x e

variable {i k : Nat} {ts us vs ws rest : List Token} {a b : Ahead} {p q q' q'' : Position}

theorem Written.climb (h : Written vars i e ts) (hik : i ≤ k) (hk : k ≤ 10) : Written vars k e ts := by
  intro rest a ha hends
  obtain ⟨x, hx, hmeans⟩ := h rest a ha (hends.mono hik)
  exact ⟨x, hx.climb hik hk ha hends.2, hmeans⟩

theorem Written.next (kind : TokenKind) (text : String) (h : Written vars k e ts)
    (hends : endsAt (ahead kind text) k) (q : Position) (rest : List Token) :
    ∃ x, Reads (16 * ts.length + k) (rung k) (ts ++ ⟨kind, text, q⟩ :: rest) (.expr x)
      (⟨kind, text, q⟩ :: rest) ∧ Means vars x e := h _ _ fits_ahead hends

/-- A token that is an operand by itself. -/
theorem written_one {p : Pattern} {t : Token} {kept : Surface.Kept} {x : Primary}
    (i : Nat) (hi : primaries[i]? = some p) (hb : b.Fits t)
    (hrejects : Pattern.rejectsAll b (Rule.rejects b sight) (signs :: primaries.take i) = true)
    (h : ∀ rest, Matches 0 none p (t :: rest) kept rest)
    (hx : build .primary t.position kept = .ok (.primary x))
    (hmeans : Gives vars (resolveHead x) fun h => ∃ e', h = .value e' ∧ Alike e e') :
    Written vars 0 e [t] := fun rest _ ha hends =>
  ⟨_, (reads_operand i hi hb hrejects (h rest) hx ha hends.1).mono (by simp), means_chain hmeans⟩

theorem written_null : Written vars 0 (.null p) [⟨.keyword, "null", q⟩] :=
  written_one 0 rfl fits_ahead rfl (fun _ => .keep .keyword) rfl (.pure ⟨_, rfl, rfl⟩)

theorem written_bool (b : Bool) :
    Written vars 0 (.bool p b) [⟨.keyword, if b then "true" else "false", q⟩] := by
  cases b
  · exact written_one 2 rfl fits_ahead rfl (fun _ => .keep .keyword) rfl (.pure ⟨_, rfl, rfl⟩)
  · exact written_one 1 rfl fits_ahead rfl (fun _ => .keep .keyword) rfl (.pure ⟨_, rfl, rfl⟩)

/-- A token that is no keyword and no operator. -/
def plain (kind : TokenKind) : Ahead := ⟨kind, (· ∈ keywords ++ operators)⟩

theorem fits_plain {kind : TokenKind} {text : String} (h : text ∉ keywords ++ operators) :
    (plain kind).Fits ⟨kind, text, p⟩ where
  kind := rfl
  text s hs := by
    rintro rfl
    exact h (of_decide_eq_true hs)

theorem plain_of_isName {name : String} (h : IsName name) : name ∉ keywords ++ operators := by
  refine fun hmem => (List.mem_append.mp hmem).elim h.1 fun hop => h.2.1 ?_
  have hnone : word name.toList = [] := (by decide : ∀ op ∈ operators, word op.toList = []) name hop
  exact String.toList_eq_nil_iff.mp (h.2.2.symm.trans hnone)

theorem written_get {v : Ref} (hv : v ∈ vars) (hname : IsName v.name) :
    Written vars 0 (.get p v) [⟨.ident, v.name, q⟩] := by
  refine written_one 17 rfl (fits_plain (plain_of_isName hname)) (by decide)
    (fun _ => .keep (.token rfl)) rfl ?_
  rw [resolveHead]
  have hlookup : Gives vars (lookup v.name) fun b => b.map (·.ref) = some v :=
    fun s hs => ⟨_, rfl, hs v hv⟩
  refine hlookup.bind fun b hb => ?_
  obtain ⟨b, rfl, href⟩ := Option.map_eq_some_iff.mp hb
  exact .pure ⟨_, rfl, by rw [href]; rfl⟩

theorem written_int {n : Int64} {text : String} (htext : text ∉ keywords ++ operators)
    (hn : Decimal.readInteger text = .ok n) : Written vars 0 (.int p n) [⟨.integer, text, q⟩] := by
  refine written_one 5 rfl (fits_plain htext) (by decide) (fun _ => .keep (.token rfl)) rfl ?_
  simp only [resolveHead, Resolve.integer, hn]
  exact .pure ⟨_, rfl, rfl⟩

theorem Written.signed {op : String} (h : Written vars 0 e ts) (hop : op ∈ ["!", "-", "~"])
    (hmeans : ∀ p e', Alike e e' → Alike g (unary p op e')) :
    Written vars 0 g (⟨.operator, op, q⟩ :: ts) := by
  intro rest a ha hends
  obtain ⟨x, hx, hmeansx⟩ := h rest a ha hends
  have htext : String.join [op] = op := by simp [String.join]
  refine ⟨.unary q op x, ⟨_, .this (.once (.cons (.oneOf (by decide) hop)
    (.cons (.keep (.rule hx (by simp))) .nil))), ?_⟩, means_unary hmeansx (hmeans q)⟩
  rw [← htext]
  rfl

theorem Written.parens (h : Written vars 10 e ts) :
    Written vars 0 e (⟨.operator, "(", q⟩ :: (ts ++ [⟨.operator, ")", q'⟩])) := by
  intro rest a ha hends
  obtain ⟨x, hx, hmeans⟩ := h.next .operator ")" (by decide) q' rest
  refine ⟨.chain (.paren q x) [], ?_, means_chain ?_⟩
  · rw [List.cons_append, List.append_assoc]
    exact (reads_operand 18 rfl fits_ahead rfl (.cons .operator (.cons
      (.keep (.rule hx (Nat.lt_succ_self _))) (.cons .operator .nil))) rfl ha hends.1).mono
        (by simp only [List.length_append, List.length_cons, List.length_nil]; omega)
  · rw [resolveHead]
    exact hmeans.bind fun e' he => .pure ⟨e', rfl, he⟩

/-! ## Operators -/

theorem Written.combine {op : String} (he : Written vars i e us) (hf : Written vars i f vs)
    (hop : op ∈ symbols i) (hends : endsAt (ahead .operator op) i)
    (hmeans : ∀ p x y, Means vars x e → Means vars y f → Means vars (Grammar.combine i p op x y) g) :
    Written vars (i + 1) g (us ++ ⟨.operator, op, q⟩ :: vs) := by
  intro rest a ha hends'
  obtain ⟨x, hx, hmx⟩ := he.next .operator op hends q (vs ++ rest)
  obtain ⟨y, hy, hmy⟩ := hf rest a ha (hends'.mono (by omega))
  obtain ⟨p, hxy⟩ := Reads.combine (n := 16 * (us.length + vs.length) + i) hop (hx.mono (by omega))
    (hy.mono (by omega)) (by simp) ha (hends'.2 i (by omega))
  rw [List.append_assoc]
  exact ⟨_, hxy.mono (by simp only [List.length_append, List.length_cons]; omega), hmeans p x y hmx hmy⟩

theorem means_binary {op : String} (hop : op ∈ Tree.infixOperators) {x y : Surface.Expr}
    (hx : Means vars x e) (hy : Means vars y f) :
    Means vars (.binary p op x y) (.methodCall q e op ⟨[f], []⟩) := by
  have hbinary (e f : Tree.Expr) : Resolve.binary p op e f = .methodCall p e op ⟨[f], []⟩ := by
    simp only [Tree.infixOperators, List.mem_cons, List.not_mem_nil, or_false] at hop
    rcases hop with rfl | rfl | rfl | rfl | rfl | rfl | rfl | rfl | rfl | rfl | rfl | rfl | rfl | rfl <;> rfl
  rw [Means, resolveExpr]
  refine hx.bind fun e' he => hy.bind fun f' hf => .pure ?_
  simp only [hbinary, Alike, unplaced, unplacedAll, he.eq, hf.eq]

theorem Written.binary {op : String} (hop : op ∈ Tree.infixOperators) (he : Written vars 0 e us)
    (hf : Written vars 0 f vs) :
    Written vars 10 (.methodCall p e op ⟨[f], []⟩) (us ++ ⟨.operator, op, q⟩ :: vs) := by
  obtain ⟨i, hi, hmem, hends⟩ := (by decide : ∀ op ∈ Tree.infixOperators, ∃ i < 5, op ∈ symbols i ∧
    endsAt (ahead .operator op) i) op hop
  have hcombine (p : Position) (x y : Surface.Expr) : Grammar.combine i p op x y = .binary p op x y := by
    obtain rfl | rfl | rfl | rfl | rfl : i = 0 ∨ i = 1 ∨ i = 2 ∨ i = 3 ∨ i = 4 := by omega
    all_goals rfl
  refine Written.climb (i := i + 1) ?_ (by omega) (Nat.le_refl 10)
  refine (he.climb (by omega) (by omega)).combine (hf.climb (by omega) (by omega)) hmem hends ?_
  intro p' x y hx hy
  rw [hcombine]
  exact means_binary hop hx hy

theorem means_logical {o : Surface.LogicalOp} {x y : Surface.Expr} (hx : Means vars x e)
    (hy : Means vars y f) : Means vars (.logical p o x y) (.logical q (logicalOp o) e f) := by
  rw [Means, resolveExpr]
  refine hx.bind fun e' he => hy.bind fun f' hf => .pure ?_
  simp only [Alike, unplaced, he.eq, hf.eq]

theorem Written.logical {o : Tree.LogicalOp} (he : Written vars 0 e us) (hf : Written vars 0 f vs) :
    Written vars 10 (.logical p o e f) (us ++ ⟨.operator, o.text, q⟩ :: vs) := by
  have hlevel (i : Nat) (hi : i ≤ 9) (hop : o.text ∈ symbols i)
      (hends : endsAt (ahead .operator o.text) i) (hmeans : ∀ p' x y, Means vars x e → Means vars y f →
        Means vars (Grammar.combine i p' o.text x y) (.logical p o e f)) :
      Written vars 10 (.logical p o e f) (us ++ ⟨.operator, o.text, q⟩ :: vs) :=
    ((he.climb (Nat.zero_le i) (by omega)).combine (hf.climb (Nat.zero_le i) (by omega)) hop hends
      hmeans).climb (by omega) (Nat.le_refl 10)
  cases o with
  | and => exact hlevel 5 (by decide) (by decide) (by decide) fun _ _ _ => means_logical
  | or => exact hlevel 6 (by decide) (by decide) (by decide) fun _ _ _ => means_logical
  | ifNull => exact hlevel 7 (by decide) (by decide) (by decide) fun _ _ _ => means_logical

theorem Written.conditional (he : Written vars 0 e us) (hf : Written vars 0 f vs)
    (hg : Written vars 0 g ws) : Written vars 10 (.conditional p e f g)
      (us ++ ⟨.operator, "?", q⟩ :: (vs ++ ⟨.operator, ":", q'⟩ :: ws)) := by
  intro rest a ha hends
  obtain ⟨x, hx, hmx⟩ := (he.climb (k := 8) (by decide) (by decide)).next .operator "?"
    (by decide) q (vs ++ ⟨.operator, ":", q'⟩ :: (ws ++ rest))
  obtain ⟨y, hy, hmy⟩ := (hf.climb (k := 10) (by decide) (by decide)).next .operator ":"
    (by decide) q' (ws ++ rest)
  obtain ⟨z, hz, hmz⟩ := hg.climb (k := 10) (by decide) (by decide) rest a ha hends
  obtain ⟨p', hxyz⟩ := Reads.conditional (n := 16 * (us.length + vs.length + ws.length) + 10)
    (hx.mono (by omega)) (hy.mono (by omega)) (hz.mono (by omega))
  refine ⟨.conditional p' x y z, ?_, ?_⟩
  · have htop := Reads.climb (n := 16 * (us.length + vs.length + ws.length) + 2) (i := 9) hxyz
      (by decide) (Nat.le_refl 10) ha hends.2
    simp only [List.append_assoc, List.cons_append]
    exact htop.mono (by simp only [List.length_append, List.length_cons]; omega)
  · rw [Means, resolveExpr]
    refine hmx.bind fun e' he => hmy.bind fun f' hf => hmz.bind fun g' hg => .pure ?_
    simp only [Alike, unplaced, he.eq, hf.eq, hg.eq]

theorem Written.typed {word name : String} (he : Written vars 0 e us)
    (hword : word = "is" ∧ g = .isType p e name ∨ word = "as" ∧ g = .asType p e name) :
    Written vars 10 g (us ++ [⟨.keyword, word, q⟩, ⟨.ident, name, q'⟩]) := by
  refine Written.climb (i := 4) ?_ (by decide) (Nat.le_refl 10)
  intro rest a ha hends
  have hfollows : endsAt (ahead .keyword word) 3 := by
    rcases hword with ⟨rfl, -⟩ | ⟨rfl, -⟩ <;> decide
  obtain ⟨x, hx, hmx⟩ := (he.climb (k := 3) (by decide) (by decide)).next .keyword word
    hfollows q (⟨.ident, name, q'⟩ :: rest)
  rw [List.append_assoc]
  have hlength : 16 * us.length + 3 + 1 ≤
      16 * (us ++ [(⟨.keyword, word, q⟩ : Token), ⟨.ident, name, q'⟩]).length + 4 := by
    rw [List.length_append]
    omega
  rcases hword with ⟨rfl, rfl⟩ | ⟨rfl, rfl⟩
  · obtain ⟨p', hxt⟩ := Reads.typed rfl (.inl ⟨rfl, rfl⟩) hx
    refine ⟨_, hxt.mono hlength, ?_⟩
    rw [Means, resolveExpr]
    exact hmx.bind fun e' he => .pure (by simp only [Alike, unplaced, he.eq])
  · obtain ⟨p', hxt⟩ := Reads.typed rfl (.inr ⟨rfl, rfl⟩) hx
    refine ⟨_, hxt.mono hlength, ?_⟩
    rw [Means, resolveExpr]
    exact hmx.bind fun e' he => .pure (by simp only [Alike, unplaced, he.eq])

/-! ## Lists -/

/-- The tokens are the elements of a list with commas between them. -/
inductive Listed (vars : List Ref) : List Tree.Expr → List Token → Prop
  | one {e : Tree.Expr} {us : List Token} : Written vars 10 e us → Listed vars [e] us
  | cons {e : Tree.Expr} {es : List Tree.Expr} {us vs : List Token} {q : Position} :
      Written vars 10 e us → Listed vars es vs →
      Listed vars (e :: es) (us ++ ⟨.operator, ",", q⟩ :: vs)

def MeansAll (vars : List Ref) (xs : List Surface.Expr) (es : List Tree.Expr) : Prop :=
  Gives vars (resolveExprs xs) fun es' => unplacedAll es' = unplacedAll es

theorem MeansAll.cons {x : Surface.Expr} {xs : List Surface.Expr} {es : List Tree.Expr}
    (hx : Means vars x e) (hxs : MeansAll vars xs es) : MeansAll vars (x :: xs) (e :: es) := by
  rw [MeansAll, resolveExprs]
  exact hx.bind fun e' he => hxs.bind fun es' hes => .pure (by simp only [unplacedAll, he.eq, hes])

/-- The first element is read, and the loop reads the others up to the bracket. -/
theorem Listed.loops {es : List Tree.Expr} (h : Listed vars es ts) {n : Nat}
    (hn : 16 * ts.length + 10 < n) (q : Position) (rest : List Token) : ∃ x mid xs,
      Reads (16 * ts.length + 10) .expr (ts ++ ⟨.operator, "]", q⟩ :: rest) (.expr x) mid ∧
      mid.length ≤ (ts ++ ⟨.operator, "]", q⟩ :: rest).length ∧
      Loops n none (.seq [",", sub .items .expr]) mid (xs.map fun x => (.items, .piece (.expr x)))
        (⟨.operator, "]", q⟩ :: rest) ∧ MeansAll vars (x :: xs) es := by
  induction h with
  | one he =>
    obtain ⟨x, hx, hmx⟩ := he.next .operator "]" (by decide) q rest
    exact ⟨x, _, [], hx, by simp, .nil fits_ahead rfl, .cons hmx (.pure rfl)⟩
  | @cons e es us vs q' he _ ih =>
    simp only [List.length_append, List.length_cons] at hn
    obtain ⟨y, mid, ys, hy, hmid, hloops, hmeans⟩ := ih (by omega)
    obtain ⟨x, hx, hmx⟩ := he.next .operator "," (by decide) q' (vs ++ ⟨.operator, "]", q⟩ :: rest)
    have hall : Loops n none (.seq [",", sub .items .expr]) (⟨.operator, ",", q'⟩ ::
        (vs ++ ⟨.operator, "]", q⟩ :: rest)) ((y :: ys).map fun x => (.items, .piece (.expr x))) _ :=
      .cons (.cons .operator (.cons (.keep (.rule hy (by omega))) .nil)) (Nat.lt_succ_of_le hmid) hloops
    rw [List.append_assoc]
    exact ⟨x, _, y :: ys, hx.mono (by simp only [List.length_append, List.length_cons]; omega),
      by simp, hall, .cons hmx hmeans⟩

theorem Listed.list {es : List Tree.Expr} (h : Listed vars es ts) :
    Written vars 0 (.list p es false) (⟨.operator, "[", q⟩ :: (ts ++ [⟨.operator, "]", q'⟩])) := by
  intro rest a ha hends
  obtain ⟨x, mid, xs, hx, -, hloops, hmeans⟩ := h.loops (Nat.lt_succ_self _) q' rest
  have hlist : Reads (16 * ts.length + 11) .listLit
      (⟨.operator, "[", q⟩ :: (ts ++ ⟨.operator, "]", q'⟩ :: rest))
      (.primary (.list q false (x :: xs))) rest := by
    refine ⟨_, .cons .operator (.cons (.optional (.cons (.keep (.rule hx (Nat.lt_succ_self _)))
      (.cons (.many hloops) (.cons (.skip fits_ahead rfl) .nil)))) (.cons .operator .nil)), ?_⟩
    refine congrArg (Except.ok ∘ Surface.Piece.primary ∘ .list q false) ?_
    simp [Surface.Kept.exprs, Surface.Kept.pieces, keepUnder, List.filterMap_map, Function.comp_def]
  refine ⟨.chain (.list q false (x :: xs)) [], ?_, means_chain ?_⟩
  · rw [List.cons_append, List.append_assoc]
    exact (reads_operand 11 rfl fits_ahead rfl (.keep (.rule hlist (Nat.lt_succ_self _))) rfl ha
      hends.1).mono
        (by simp only [List.length_append, List.length_cons, List.length_nil]; omega)
  · rw [resolveHead]
    exact hmeans.bind fun es' hes => .pure ⟨_, rfl, by simp only [Alike, unplaced, hes]⟩

theorem written_nil : Written vars 0 (.list p [] false) [⟨.operator, "[", q⟩, ⟨.operator, "]", q'⟩] := by
  intro rest a ha hends
  have hlist : Reads 0 .listLit (⟨.operator, "[", q⟩ :: ⟨.operator, "]", q'⟩ :: rest)
      (.primary (.list q false [])) rest :=
    ⟨_, .cons .operator (.cons (.skip fits_ahead rfl) (.cons .operator .nil)), rfl⟩
  refine ⟨.chain (.list q false []) [], ?_, means_chain ?_⟩
  · exact (reads_operand 11 rfl fits_ahead rfl (.keep (.rule hlist Nat.zero_lt_one)) rfl ha
      hends.1).mono (by simp)
  · rw [resolveHead]
    exact .pure ⟨_, rfl, rfl⟩

end Reading

end Flowgraph
