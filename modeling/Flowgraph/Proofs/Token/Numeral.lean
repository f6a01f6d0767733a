import Flowgraph.Decimal.Numeral
import Mathlib.Data.List.Basic

/-! # Printed numbers

The digits of a number that is not negative are a numeral of this number.
-/

namespace Flowgraph.Decimal

theorem le_ofDigitChars (cs : List Char) (n : Nat) : n ≤ Nat.ofDigitChars 10 cs n := by
  induction cs generalizing n with
  | nil => exact Nat.le_refl n
  | cons c cs ih =>
    rw [Nat.ofDigitChars_cons]
    exact Nat.le_trans (by omega) (ih _)

theorem readDigits_ten {cs : List Char} (hcs : ∀ c ∈ cs, c.isDigit = true) {n : Nat}
    (hn : Nat.ofDigitChars 10 cs n < Nat.pow 2 64) :
    readDigits 10 cs n = .ok (Nat.ofDigitChars 10 cs n) := by
  induction cs generalizing n with
  | nil => rfl
  | cons c cs ih =>
    have hc := hcs c (by simp)
    have hvalue : digitValue c = c.toNat - '0'.toNat := if_pos hc
    have hten : c.toNat - '0'.toNat < 10 := by
      simp only [Char.isDigit, Bool.and_eq_true, decide_eq_true_eq] at hc
      exact Nat.lt_succ_of_le (Nat.sub_le_sub_right hc.2 48)
    rw [Nat.ofDigitChars_cons, Nat.mul_comm] at hn ⊢
    have hle := le_ofDigitChars cs (n * 10 + (c.toNat - '0'.toNat))
    rw [readDigits, hvalue, if_neg (by omega)]
    dsimp only
    rw [if_neg (Nat.not_le.mpr (Nat.lt_of_le_of_lt hle hn))]
    exact ih (fun d hd => hcs d (by simp [hd])) hn

/-- Only the numeral of zero starts with a zero. -/
theorem head_toDigits {n : Nat} (hn : 0 < n) : ∃ c cs, Nat.toDigits 10 n = c :: cs ∧ c ≠ '0' := by
  induction n using Nat.strongRecOn with
  | ind n ih =>
    rw [Nat.toDigits_eq_if (by decide)]
    split
    · next hlt => exact ⟨_, [], rfl, (by decide : ∀ n < 10, 0 < n → Nat.digitChar n ≠ '0') n hlt hn⟩
    · obtain ⟨c, cs, hcs, hc⟩ := ih (n / 10) (by omega) (by omega)
      exact ⟨c, _, by rw [hcs]; rfl, hc⟩

theorem readUnsigned_toDigits {n : Nat} (hn : n < Nat.pow 2 64) :
    readUnsigned (Nat.toDigits 10 n) = .ok n := by
  have hvalue : Nat.ofDigitChars 10 (Nat.toDigits 10 n) 0 = n :=
    Nat.ofDigitChars_toDigits (by decide) (by decide)
  rcases Nat.eq_zero_or_pos n with rfl | hpos
  · rfl
  · obtain ⟨c, cs, hcs, hc⟩ := head_toDigits hpos
    have hdigits : ∀ d ∈ Nat.toDigits 10 n, d.isDigit = true := fun d hd =>
      Nat.isDigit_of_mem_toDigits (by decide) (by decide) hd
    have hread := readDigits_ten hdigits (n := 0) (by rwa [hvalue])
    rw [hvalue] at hread
    rw [← hread, hcs]
    unfold readUnsigned
    split <;> simp_all

variable {n : Int64}

theorem toString_toInt (hn : 0 ≤ n.toInt) :
    (toString n.toInt).toList = Nat.toDigits 10 n.toInt.toNat := by
  obtain ⟨m, hm⟩ := Int.eq_ofNat_of_zero_le hn
  rw [hm, show toString (m : Int) = m.repr from rfl, Nat.repr_eq_ofList_toDigits, String.toList_ofList,
    Int.toNat_natCast]

theorem digits_toString (hn : 0 ≤ n.toInt) : (toString n.toInt).toList ≠ [] ∧
    ∀ c ∈ (toString n.toInt).toList, c.isDigit = true := by
  rw [toString_toInt hn]
  exact ⟨Nat.toDigits_ne_nil, fun c hc => Nat.isDigit_of_mem_toDigits (by decide) (by decide) hc⟩

theorem readInteger_toString (hn : 0 ≤ n.toInt) : readInteger (toString n.toInt) = .ok n := by
  have hlt : n.toInt.toNat < Nat.pow 2 63 := (Int.toNat_lt hn).mpr n.toInt_lt
  have hvalue : Int64.ofNat n.toInt.toNat = n := by
    conv_rhs => rw [← n.ofInt_toInt, ← Int.toNat_of_nonneg hn]
    rfl
  rw [readInteger, toString_toInt hn, readUnsigned_toDigits (Nat.lt_trans hlt (by decide))]
  simp only [hlt, if_true, hvalue]

end Flowgraph.Decimal
