import Flowgraph.Text.Quoted
import Mathlib.Algebra.Group.Nat.Defs

/-! # Quoted texts are read back

An escape sequence starts with a backslash and tells its length by the character
behind it, so different texts are quoted differently.
-/

namespace Flowgraph.Text

/-! ## Hexadecimal digits -/

theorem hexDigit_injective {m n : Nat} (hm : m < 16) (hn : n < 16)
    (h : hexDigit m = hexDigit n) : m = n := by
  have hall : ∀ a < 16, ∀ b < 16, hexDigit a = hexDigit b → a = b := by decide
  exact hall m hm n hn h

@[simp] theorem length_hexDigits (width n : Nat) : (hexDigits width n).length = width := by
  induction width generalizing n with
  | zero => rfl
  | succ width ih => simp [hexDigits, ih]

theorem hexDigits_injective {width m n : Nat} (hm : m < 16 ^ width) (hn : n < 16 ^ width)
    (h : hexDigits width m = hexDigits width n) : m = n := by
  induction width generalizing m n with
  | zero => omega
  | succ width ih =>
    obtain ⟨hinit, hlast⟩ := List.append_inj' h rfl
    have hlow : m % 16 = n % 16 :=
      hexDigit_injective (by omega) (by omega) (List.singleton_inj.mp hlast)
    have hhigh : m / 16 = n / 16 := ih (by omega) (by omega) hinit
    omega

/-! ## Escape sequences -/

/-- The character that a backslash and a character stand for. -/
def shortEscape : Char → Option Char
  | 'a' => some '\x07'
  | 'b' => some '\x08'
  | 'f' => some '\x0c'
  | 'n' => some '\n'
  | 'r' => some '\r'
  | 't' => some '\t'
  | 'v' => some '\x0b'
  | '\\' => some '\\'
  | '"' => some '"'
  | _ => none

/-- How many digits follow a backslash and a character. -/
def escapeWidth : Char → Option Nat
  | 'x' => some 2
  | 'u' => some 4
  | 'U' => some 8
  | _ => none

theorem shortEscape_of_escapeWidth {k : Char} {width : Nat} (h : escapeWidth k = some width) :
    shortEscape k = none := by
  unfold escapeWidth at h
  split at h
  · rfl
  · rfl
  · rfl
  · cases h

theorem escape_cases (c : Char) :
    (escape c = [c] ∧ c ≠ '\\') ∨ (∃ k, escape c = ['\\', k] ∧ shortEscape k = some c) ∨
      ∃ k width, escape c = '\\' :: k :: hexDigits width c.toNat ∧
        escapeWidth k = some width ∧ c.toNat < 16 ^ width := by
  have hlt : c.toNat < 16 ^ 8 := Nat.lt_of_lt_of_le c.val.toNat_lt (by decide)
  unfold escape
  split
  case h_10 hslash _ =>
    split
    · exact .inl ⟨rfl, hslash⟩
    split
    · exact .inr (.inr ⟨'x', 2, rfl, rfl, by omega⟩)
    split
    · exact .inr (.inr ⟨'u', 4, rfl, rfl, by omega⟩)
    · exact .inr (.inr ⟨'U', 8, rfl, rfl, hlt⟩)
  all_goals exact .inr (.inl ⟨_, rfl, rfl⟩)

theorem escape_append_inj {c d : Char} {r r' : List Char}
    (h : escape c ++ r = escape d ++ r') : c = d ∧ r = r' := by
  rcases escape_cases c with ⟨hc, hne⟩ | ⟨k, hc, hk⟩ | ⟨k, width, hc, hk, hlt⟩ <;>
    rcases escape_cases d with ⟨hd, hne'⟩ | ⟨k', hd, hk'⟩ | ⟨k', width', hd, hk', hlt'⟩ <;>
    simp only [hc, hd, List.cons_append, List.nil_append, List.cons.injEq] at h
  · exact h
  · exact absurd h.1 hne
  · exact absurd h.1 hne
  · exact absurd h.1.symm hne'
  · obtain ⟨-, rfl, hr⟩ := h
    exact ⟨Option.some.inj (hk.symm.trans hk'), hr⟩
  · obtain ⟨-, rfl, -⟩ := h
    simp [shortEscape_of_escapeWidth hk'] at hk
  · exact absurd h.1.symm hne'
  · obtain ⟨-, rfl, -⟩ := h
    simp [shortEscape_of_escapeWidth hk] at hk'
  · obtain ⟨-, rfl, hr⟩ := h
    obtain rfl : width = width' := Option.some.inj (hk.symm.trans hk')
    obtain ⟨hdigits, hr⟩ := List.append_inj hr (by simp)
    exact ⟨Char.toNat_inj.mp (hexDigits_injective hlt hlt' hdigits), hr⟩

theorem escape_ne_nil (c : Char) : escape c ≠ [] := by
  rcases escape_cases c with ⟨h, -⟩ | ⟨k, h, -⟩ | ⟨k, width, h, -⟩ <;> simp [h]

theorem flatMap_escape_injective {cs ds : List Char}
    (h : cs.flatMap escape = ds.flatMap escape) : cs = ds := by
  induction cs generalizing ds with
  | nil =>
    cases ds with
    | nil => rfl
    | cons d ds => simp [escape_ne_nil] at h
  | cons c cs ih =>
    cases ds with
    | nil => simp [escape_ne_nil] at h
    | cons d ds =>
      obtain ⟨rfl, hrest⟩ := escape_append_inj h
      rw [ih hrest]

theorem quote_injective : Function.Injective quote := by
  intro s t h
  have hchars : quoteChars s.toList = quoteChars t.toList := by
    simpa [quote] using congrArg String.toList h
  have hbody : s.toList.flatMap escape = t.toList.flatMap escape := by
    simpa [quoteChars] using hchars
  exact String.toList_inj.mp (flatMap_escape_injective hbody)

end Flowgraph.Text
