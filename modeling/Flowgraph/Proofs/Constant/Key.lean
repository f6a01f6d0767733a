import Flowgraph.Constant.Pool
import Flowgraph.Proofs.Text.Quoted
import Mathlib.Data.List.Basic

/-! # Different keys have different texts

The mark in front tells the kind of a constant, and what follows can be read back:
numbers have digits only, so the signs between them are found again.
-/

namespace Flowgraph.Constant

/-! ## Numbers -/

theorem toDigits_sixteen_injective : Function.Injective (Nat.toDigits 16) := by
  have hdigit : ∀ a < 16, ∀ b < 16, Nat.digitChar a = Nat.digitChar b → a = b := by decide
  intro m
  induction m using Nat.strongRecOn with
  | ind m ih =>
    intro n h
    rw [Nat.toDigits_eq_if (n := m) (by decide), Nat.toDigits_eq_if (n := n) (by decide)] at h
    split at h <;> split at h
    · exact hdigit m (by assumption) n (by assumption) (List.singleton_inj.mp h)
    · simpa [Nat.toDigits_ne_nil] using congrArg List.dropLast h
    · simpa [Nat.toDigits_ne_nil] using congrArg List.dropLast h
    · obtain ⟨hinit, hlast⟩ := List.append_inj' h rfl
      have hlow := hdigit _ (by omega) _ (by omega) (List.singleton_inj.mp hlast)
      have hhigh : m / 16 = n / 16 := ih _ (by omega) hinit
      omega

theorem isDigit_of_mem_repr {n : Nat} {c : Char} (h : c ∈ n.repr.toList) : c.isDigit = true := by
  rw [Nat.repr_eq_ofList_toDigits, String.toList_ofList] at h
  exact Nat.isDigit_of_mem_toDigits (by decide) (by decide) h

theorem natRepr_injective : Function.Injective Nat.repr := by
  intro m n h
  have hdigits : Nat.toDigits 10 m = Nat.toDigits 10 n := by
    simpa [Nat.repr_eq_ofList_toDigits] using congrArg String.toList h
  calc
    m = Nat.ofDigitChars 10 (Nat.toDigits 10 m) 0 := by simp
    _ = Nat.ofDigitChars 10 (Nat.toDigits 10 n) 0 := by rw [hdigits]
    _ = n := by simp

theorem repr_ne_minus (m n : Nat) : m.repr ≠ "-" ++ n.repr := by
  intro h
  have hmem : '-' ∈ m.repr.toList := by simp [h]
  exact absurd (isDigit_of_mem_repr hmem) (by decide)

theorem intRepr_injective : Function.Injective Int.repr := by
  intro a b h
  cases a with
  | ofNat m =>
    cases b with
    | ofNat n => rw [natRepr_injective h]
    | negSucc n => exact absurd h (repr_ne_minus m (n + 1))
  | negSucc m =>
    cases b with
    | ofNat n => exact absurd h.symm (repr_ne_minus n (m + 1))
    | negSucc n =>
      have hsucc : (m + 1).repr = (n + 1).repr := by
        simpa [Int.repr, ← String.toList_inj] using h
      rw [Nat.succ.inj (natRepr_injective hsucc)]

/-! ## Lists of numbers -/

theorem toList_numbersText (ns : List Nat) :
    (numbersText ns).toList = [','].intercalate (ns.map fun n => n.repr.toList) := by
  simp [numbersText, String.toList_intercalate, Function.comp_def]

theorem splitOn_numbersText {ns : List Nat} (h : ns ≠ []) :
    (numbersText ns).toList.splitOn ',' = ns.map fun n => n.repr.toList := by
  rw [toList_numbersText]
  apply List.splitOn_intercalate
  · intro l hl hmem
    obtain ⟨n, -, rfl⟩ := List.mem_map.mp hl
    exact absurd (isDigit_of_mem_repr hmem) (by decide)
  · simpa using h

theorem numbersText_cons_ne (n : Nat) (ns : List Nat) : numbersText (n :: ns) ≠ numbersText [] := by
  intro h
  have hsplit := splitOn_numbersText (List.cons_ne_nil n ns)
  rw [h] at hsplit
  have hempty : n.repr.toList = [] := (List.cons.inj hsplit).1.symm
  exact Nat.repr_ne_empty (String.toList_eq_nil_iff.mp hempty)

theorem numbersText_injective : Function.Injective numbersText := by
  intro ms ns h
  cases ms with
  | nil =>
    cases ns with
    | nil => rfl
    | cons n ns => exact absurd h.symm (numbersText_cons_ne n ns)
  | cons m ms =>
    cases ns with
    | nil => exact absurd h (numbersText_cons_ne m ms)
    | cons n ns =>
      have hsplit := splitOn_numbersText (List.cons_ne_nil m ms)
      rw [h, splitOn_numbersText (List.cons_ne_nil n ns)] at hsplit
      refine (List.map_inj_right fun a b hab => ?_).mp hsplit.symm
      exact natRepr_injective (String.toList_inj.mp hab)

theorem mem_numbersText {ns : List Nat} {c : Char} (h : c ∈ (numbersText ns).toList) :
    c.isDigit = true ∨ c = ',' := by
  rw [toList_numbersText] at h
  induction ns with
  | nil => simp at h
  | cons n ns ih =>
    cases ns with
    | nil => exact .inl (isDigit_of_mem_repr (by simpa using h))
    | cons m ns =>
      rw [List.map_cons, List.map_cons, List.intercalate_cons_cons, List.append_assoc] at h
      rcases List.mem_append.mp h with h | h
      · exact .inl (isDigit_of_mem_repr h)
      · rcases List.mem_append.mp h with h | h
        · exact .inr (List.mem_singleton.mp h)
        · exact ih h

/-- A sign that is neither a digit nor a comma is found again between two parts. -/
theorem numbersText_append_inj (sign : Char) (hdigit : sign.isDigit = false) (hcomma : sign ≠ ',')
    {as bs : List Char} {ms ns : List Nat}
    (h : as ++ sign :: (numbersText ms).toList = bs ++ sign :: (numbersText ns).toList) :
    as = bs ∧ ms = ns := by
  have hnot : ∀ ns, sign ∉ (numbersText ns).toList.reverse := fun ns hmem => by
    rcases mem_numbersText (List.mem_reverse.mp hmem) with hd | rfl
    · simp [hdigit] at hd
    · exact hcomma rfl
  have hsame : (numbersText ms).toList.reverse = (numbersText ns).toList.reverse ∧
      as.reverse = bs.reverse := by
    have hrev := congrArg List.reverse h
    simp only [List.reverse_append, List.reverse_cons, List.append_assoc, List.singleton_append] at hrev
    have htake := congrArg (List.takeWhile (· ≠ sign)) hrev
    have hall : ∀ ns, ∀ c ∈ (numbersText ns).toList.reverse, decide (c ≠ sign) = true :=
      fun ns c hc => decide_eq_true fun he => hnot ns (he ▸ hc)
    rw [List.takeWhile_append_of_pos (hall ms), List.takeWhile_append_of_pos (hall ns)] at htake
    simp only [ne_eq, not_true_eq_false, decide_false, Bool.false_eq_true, not_false_eq_true,
      List.takeWhile_cons_of_neg, List.append_nil] at htake
    rw [htake] at hrev
    exact ⟨htake, (List.cons.inj (List.append_cancel_left hrev)).2⟩
  exact ⟨List.reverse_inj.mp hsame.2,
    numbersText_injective (String.toList_inj.mp (List.reverse_inj.mp hsame.1))⟩

/-! ## Keys -/

namespace Key

/-- The character that tells the kind of a constant. -/
def mark : Key → Char
  | null => 'n'
  | bool _ => 'b'
  | int _ => 'i'
  | double _ => 'd'
  | string _ => 's'
  | symbol _ => 'y'
  | typeOf _ => 't'
  | list _ => 'l'
  | map .. => 'm'
  | object .. => 'o'
  | function _ => 'f'

theorem head?_text (k : Key) : k.text.toList.head? = some k.mark := by
  cases k <;> simp [text, mark]

theorem text_injective : Function.Injective text := by
  intro k k' h
  have hmark : k.mark = k'.mark :=
    Option.some.inj ((head?_text k).symm.trans (h ▸ head?_text k'))
  have hlist := congrArg String.toList h
  cases k <;> cases k' <;> simp only [mark, Char.reduceEq] at hmark <;>
    simp only [text, String.toList_append, List.append_assoc, List.append_cancel_left_eq] at hlist
  case null.null => rfl
  case bool.bool b b' =>
    cases b <;> cases b' <;> simp [boolText] at hlist ⊢
  case int.int n n' =>
    rw [Int64.toInt_inj.mp (intRepr_injective (String.toList_inj.mp hlist))]
  case double.double d d' =>
    have hbits : d.bits = d'.bits :=
      UInt64.toNat_inj.mp (toDigits_sixteen_injective (by simpa using hlist))
    rw [show d = d' from congrArg Double.mk hbits]
  case string.string s s' => rw [Text.quote_injective (String.toList_inj.mp hlist)]
  case symbol.symbol n n' => rw [String.toList_inj.mp hlist]
  case typeOf.typeOf c c' => rw [String.toList_inj.mp hlist]
  case list.list es es' => rw [numbersText_injective (String.toList_inj.mp hlist)]
  case map.map ks vs ks' vs' =>
    obtain ⟨hkeys, rfl⟩ := numbersText_append_inj '|' rfl (by decide) hlist
    rw [numbersText_injective (String.toList_inj.mp hkeys)]
  case object.object c fs c' fs' =>
    obtain ⟨hname, rfl⟩ := numbersText_append_inj ':' rfl (by decide) hlist
    rw [String.toList_inj.mp hname]
  case function.function f f' => rw [natRepr_injective (String.toList_inj.mp hlist)]

end Key

end Flowgraph.Constant
