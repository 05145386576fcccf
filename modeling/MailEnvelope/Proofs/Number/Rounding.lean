import Mathlib.Algebra.Group.Nat.Defs
import MailEnvelope.Number

namespace MailEnvelope.Number

variable {base k n : Nat} {t : Text}

theorem log2_small (hn : n < 2 ^ 53) : n.log2 < 53 := by
  rcases Nat.eq_zero_or_pos n with rfl | hpos
  · decide
  · exact (Nat.log2_lt (by omega)).mpr hn

theorem round_small (hn : n < 2 ^ 53) : round n = n := by
  have hl := log2_small hn
  -- No bits are beyond the 53 that are kept, so the multiple is one of 1.
  rw [round, show n.log2 - 52 = 0 by omega, roundAt]
  simp [Nat.mod_one]

theorem le_roundAt (shift n : Nat) : n / 2 ^ shift * 2 ^ shift ≤ roundAt shift n := by
  unfold roundAt
  dsimp only
  split
  · exact Nat.le_refl _
  · exact Nat.mul_le_mul_right _ (Nat.le_succ _)

/-- A number of more than 53 bits keeps that many, so it is not rounded below what is exact. -/
theorem le_round (hn : 2 ^ 53 ≤ n) : 2 ^ 53 ≤ round n := by
  have hne : n ≠ 0 := by omega
  have hlog : 53 ≤ n.log2 := (Nat.le_log2 hne).mpr hn
  have hbits : 52 + (n.log2 - 52) = n.log2 := by omega
  have hkept : 2 ^ 52 ≤ n / 2 ^ (n.log2 - 52) := by
    rw [Nat.le_div_iff_mul_le (Nat.two_pow_pos _), ← Nat.pow_add, hbits]
    exact Nat.log2_self_le hne
  calc 2 ^ 53 ≤ 2 ^ n.log2 := Nat.pow_le_pow_right (by decide) hlog
    _ = 2 ^ 52 * 2 ^ (n.log2 - 52) := by rw [← Nat.pow_add, hbits]
    _ ≤ n / 2 ^ (n.log2 - 52) * 2 ^ (n.log2 - 52) := Nat.mul_le_mul_right _ hkept
    _ ≤ round n := le_roundAt _ n

/-- What is read as an exact number is that number, and no other is rounded to it. -/
theorem ofMagnitude_eq_whole_iff (hk : k < 2 ^ 53) : ofMagnitude false n = .whole k ↔ n = k := by
  unfold ofMagnitude
  dsimp only
  rcases Nat.lt_or_ge n (2 ^ 53) with hn | hn
  · have hl := log2_small hn
    rw [round_small hn, if_pos (show n.log2 < 1024 by omega)]
    simp only [Bool.false_eq_true, if_false, whole.injEq, Int.natCast_inj]
  · have hr := le_round hn
    have hne : n ≠ k := by omega
    rw [iff_false_right hne]
    split
    · simp only [Bool.false_eq_true, if_false, whole.injEq]
      omega
    · simp

theorem ofDigits_eq_whole_iff (hk : k < 2 ^ 53) :
    ofDigits base false t = .whole k ↔ t ≠ [] ∧ Text.numeralValue base t = k := by
  unfold ofDigits
  split
  · next h => simp [h]
  · next h => rw [ofMagnitude_eq_whole_iff hk, and_iff_right h]

end MailEnvelope.Number
