import Mathlib
import Reckon.Fraction.Basic

/-!
# Lowest terms

`reduce` keeps the number (`reduce_cross`) and leaves no common factor (`coprime_reduce`), and there
is one such pair for a number (`eq_of_coprime`). So whoever computes the right number, by whatever
pair, has the right pair after reducing.
-/

namespace Reckon.Fraction

variable {x y : Fraction}

@[ext] theorem ext (hn : x.num = y.num) (hd : x.den = y.den) : x = y := by
  obtain ⟨n, d, h⟩ := x
  obtain ⟨n', d', h'⟩ := y
  cases hn
  cases hd
  rfl

theorem gcd_pos (x : Fraction) : 0 < x.num.natAbs.gcd x.den :=
  Nat.gcd_pos_of_pos_right _ x.den_pos

theorem reduce_num (x : Fraction) : x.reduce.num = x.num / (x.num.natAbs.gcd x.den : Nat) := by
  rw [reduce]
  split
  · next h => simp [h]
  · rfl

theorem reduce_den (x : Fraction) : x.reduce.den = x.den / x.num.natAbs.gcd x.den := by
  rw [reduce]
  split
  · next h => simp [h]
  · rfl

theorem gcd_mul_num (x : Fraction) : (x.num.natAbs.gcd x.den : Nat) * x.reduce.num = x.num := by
  rw [reduce_num]
  exact Int.mul_ediv_cancel' (Int.natCast_dvd.mpr (Nat.gcd_dvd_left _ _))

theorem gcd_mul_den (x : Fraction) : x.num.natAbs.gcd x.den * x.reduce.den = x.den := by
  rw [reduce_den]
  exact Nat.mul_div_cancel' (Nat.gcd_dvd_right _ _)

theorem reduce_cross (x : Fraction) : x.reduce.num * x.den = x.num * x.reduce.den := by
  have hn := x.gcd_mul_num
  have hd := x.gcd_mul_den
  generalize x.num.natAbs.gcd x.den = g at hn hd
  rw [← hn, ← hd]
  push_cast
  ring

theorem same_reduce (x : Fraction) : x.reduce.same x := by
  rw [same, beq_iff_eq]
  exact x.reduce_cross

theorem coprime_reduce (x : Fraction) : x.reduce.num.natAbs.Coprime x.reduce.den := by
  have hn : x.num.natAbs = x.num.natAbs.gcd x.den * x.reduce.num.natAbs := by
    conv_lhs => rw [← x.gcd_mul_num, Int.natAbs_mul, Int.natAbs_natCast]
  have hd := x.gcd_mul_den
  have h := Nat.gcd_mul_left (x.num.natAbs.gcd x.den) x.reduce.num.natAbs x.reduce.den
  rw [← hn, hd] at h
  exact Nat.eq_of_mul_eq_mul_left x.gcd_pos (h.symm.trans (Nat.mul_one _).symm)

/-- Two pairs without a common factor that denote the same number are one. -/
theorem eq_of_coprime (hx : x.num.natAbs.Coprime x.den) (hy : y.num.natAbs.Coprime y.den)
    (h : x.num * y.den = y.num * x.den) : x = y := by
  have habs : x.num.natAbs * y.den = y.num.natAbs * x.den := by
    have := congrArg Int.natAbs h
    rwa [Int.natAbs_mul, Int.natAbs_mul, Int.natAbs_natCast, Int.natAbs_natCast] at this
  have hd : x.den = y.den := Nat.dvd_antisymm
    (hx.symm.dvd_of_dvd_mul_left ⟨y.num.natAbs, by rw [habs, Nat.mul_comm]⟩)
    (hy.symm.dvd_of_dvd_mul_left ⟨x.num.natAbs, by rw [← habs, Nat.mul_comm]⟩)
  refine Fraction.ext ?_ hd
  rw [← hd] at h
  exact Int.eq_of_mul_eq_mul_right (Int.natCast_ne_zero.mpr x.den_pos.ne') h

theorem reduce_of_coprime (h : x.num.natAbs.Coprime x.den) : x.reduce = x := by
  rw [reduce, if_pos h]

theorem reduce_reduce (x : Fraction) : x.reduce.reduce = x.reduce :=
  reduce_of_coprime x.coprime_reduce

end Reckon.Fraction
