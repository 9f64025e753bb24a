import Mathlib
import Reckon.Decimal

/-!
# Halving writes the plain digits

`decimalChars_eq`: the digits that halving gives are those that division by ten gives one at a time.
Halving splits a run of `2 ^ k` digits in the middle (`lowDigits_add`), and a run that is long
enough differs from the plain writing by leading zeros alone (`dropWhile_lowDigits`).
-/

namespace Reckon

theorem tenPow_eq (e : Nat) : tenPow e = 10 ^ e := rfl

/-- The lowest `m` digits of `n`, the highest first. -/
def lowDigits : Nat → Nat → List Char
  | 0, _ => []
  | m + 1, n => lowDigits m (n / 10) ++ [Nat.digitChar (n % 10)]

/-! ### Splitting -/

theorem lowDigits_add (a b n : Nat) :
    lowDigits (a + b) n = lowDigits a (n / 10 ^ b) ++ lowDigits b (n % 10 ^ b) := by
  induction b generalizing n with
  | zero => simp [lowDigits]
  | succ b ih =>
    have hdiv : n % 10 ^ (b + 1) / 10 = n / 10 % 10 ^ b := by
      rw [Nat.pow_succ', Nat.mod_mul_right_div_self]
    have hmod : n % 10 ^ (b + 1) % 10 = n % 10 := by
      rw [Nat.pow_succ']
      exact Nat.mod_mul_right_mod n 10 (10 ^ b)
    rw [← Nat.add_assoc, lowDigits, ih, lowDigits, hdiv, hmod, Nat.div_div_eq_div_mul,
      Nat.pow_succ', List.append_assoc]

theorem halving_eq (k n : Nat) (rest : List Char) :
    halving k n rest = lowDigits (2 ^ k) n ++ rest := by
  induction k generalizing n rest with
  | zero => simp [halving, lowDigits]
  | succ k ih =>
    rw [halving, ih, ih, tenPow_eq, Nat.pow_eq, Nat.pow_succ, Nat.mul_two, lowDigits_add,
      List.append_assoc]

/-! ### Leading zeros -/

theorem lowDigits_zero (m : Nat) : lowDigits m 0 = List.replicate m '0' := by
  induction m with
  | zero => rfl
  | succ m ih => rw [lowDigits, Nat.zero_div, ih, List.replicate_succ']; rfl

theorem digitChar_ne_zero {d : Nat} (h : d ≠ 0) (hd : d < 10) : Nat.digitChar d ≠ '0' := by
  intro e
  have := Nat.toNat_digitChar_of_lt_ten hd
  rw [e] at this
  exact h (by simpa using this.symm)

/-- Without its leading zeros a run of digits is the plain writing. -/
theorem dropWhile_lowDigits {m n : Nat} (h0 : n ≠ 0) (h : n < 10 ^ m) :
    (lowDigits m n).dropWhile (· == '0') = Nat.toDigits 10 n := by
  induction m generalizing n with
  | zero => omega
  | succ m ih =>
    rw [lowDigits, List.dropWhile_append, Nat.toDigits_eq_if (by decide)]
    by_cases hn : n < 10
    · have hz : n / 10 = 0 := by omega
      have hc : (Nat.digitChar n == '0') = false := by
        simpa using digitChar_ne_zero h0 hn
      rw [if_pos hn, hz, lowDigits_zero, Nat.mod_eq_of_lt hn]
      simp [hc]
    · rw [if_neg hn, ih (by omega) (by rw [Nat.pow_succ] at h; omega)]
      simp

theorem lt_ten_pow (n : Nat) : n < 10 ^ 2 ^ ((n.log2 + 1).log2 + 1) :=
  calc
    n < 2 ^ (n.log2 + 1) := Nat.lt_log2_self
    _ ≤ 10 ^ (n.log2 + 1) := Nat.pow_le_pow_left (by decide) _
    _ ≤ 10 ^ 2 ^ ((n.log2 + 1).log2 + 1) :=
      Nat.pow_le_pow_right (by decide) (Nat.le_of_lt Nat.lt_log2_self)

theorem decimalChars_eq (n : Nat) : decimalChars n = Nat.toDigits 10 n := by
  unfold decimalChars
  split
  · next h => rw [h, Nat.toDigits_zero]
  · next h => rw [halving_eq, List.append_nil, dropWhile_lowDigits h (lt_ten_pow n)]

end Reckon
