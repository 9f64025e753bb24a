import Mathlib
import Reckon.Proofs.LowestTerms

/-!
# The number a fraction denotes

`toRat` is the number that a fraction denotes, and `ofRat` its lowest terms. Reducing gives the lowest
terms of the number (`reduce_eq_ofRat`), so it does not depend on the pair, and two pairs are the same
number when they denote the same (`same_iff`).

Every operation is that of the numbers. Where an operation can fail, its outcome is written down from
the numbers alone, as a number (`map_toRat_div`, `map_toRat_pow`) and in lowest terms
(`map_reduce_div`, `map_reduce_pow`).
-/

namespace Reckon.Fraction

variable {x y : Fraction}

def toRat (x : Fraction) : ℚ := x.num / x.den

/-- A number in lowest terms. -/
def ofRat (q : ℚ) : Fraction := ⟨q.num, q.den, q.den_pos⟩

theorem den_ne_zero (x : Fraction) : (x.den : ℚ) ≠ 0 := Nat.cast_ne_zero.mpr x.den_pos.ne'

theorem toRat_eq_iff : x.toRat = y.toRat ↔ x.num * y.den = y.num * x.den := by
  rw [toRat, toRat, div_eq_div_iff x.den_ne_zero y.den_ne_zero]
  exact_mod_cast Iff.rfl

theorem same_iff : x.same y ↔ x.toRat = y.toRat := by
  rw [same, beq_iff_eq, toRat_eq_iff]

theorem toRat_eq_zero_iff : x.toRat = 0 ↔ x.num = 0 := by
  rw [toRat, div_eq_zero_iff, or_iff_left x.den_ne_zero, Int.cast_eq_zero]

/-! ### Lowest terms -/

theorem toRat_ofRat (q : ℚ) : (ofRat q).toRat = q := Rat.num_div_den q

theorem toRat_reduce (x : Fraction) : x.reduce.toRat = x.toRat := toRat_eq_iff.mpr x.reduce_cross

theorem reduce_eq_ofRat (x : Fraction) : x.reduce = ofRat x.toRat :=
  eq_of_coprime x.coprime_reduce x.toRat.reduced
    (toRat_eq_iff.mp (x.toRat_reduce.trans (toRat_ofRat x.toRat).symm))

theorem reduce_eq_of_toRat (h : x.toRat = y.toRat) : x.reduce = y.reduce := by
  rw [reduce_eq_ofRat, reduce_eq_ofRat, h]

/-! ### Arithmetic -/

theorem toRat_add (x y : Fraction) : (x + y).toRat = x.toRat + y.toRat := by
  have hx := x.den_ne_zero
  have hy := y.den_ne_zero
  show ((x.num * y.den + y.num * x.den : Int) : ℚ) / (x.den * y.den : Nat) = _
  rw [toRat, toRat, div_add_div _ _ hx hy]
  push_cast
  ring

theorem toRat_neg (x : Fraction) : (-x).toRat = -x.toRat := by
  show ((-x.num : Int) : ℚ) / x.den = _
  rw [toRat, Int.cast_neg, neg_div]

theorem toRat_sub (x y : Fraction) : (x - y).toRat = x.toRat - y.toRat := by
  have hx := x.den_ne_zero
  have hy := y.den_ne_zero
  show ((x.num * y.den - y.num * x.den : Int) : ℚ) / (x.den * y.den : Nat) = _
  rw [toRat, toRat, div_sub_div _ _ hx hy]
  push_cast
  ring

theorem toRat_mul (x y : Fraction) : (x * y).toRat = x.toRat * y.toRat := by
  show ((x.num * y.num : Int) : ℚ) / (x.den * y.den : Nat) = _
  rw [toRat, toRat, div_mul_div_comm]
  push_cast
  rfl

theorem toRat_npow (x : Fraction) (n : Nat) : (x.npow n).toRat = x.toRat ^ n := by
  show ((x.num ^ n : Int) : ℚ) / (x.den ^ n : Nat) = _
  rw [toRat, div_pow]
  push_cast
  rfl

theorem reciprocal_zero (h : x.toRat = 0) : x.reciprocal = .error .divideByZero :=
  dif_pos (toRat_eq_zero_iff.mp h)

theorem reciprocal_eq (h : x.toRat ≠ 0) : ∃ r, x.reciprocal = .ok r ∧ r.toRat = x.toRat⁻¹ := by
  have hn : x.num ≠ 0 := mt toRat_eq_zero_iff.mpr h
  refine ⟨_, dif_neg hn, ?_⟩
  rw [toRat, toRat, inv_div]
  have habs : (x.num.natAbs : ℚ) = |(x.num : ℚ)| := by
    rw [← Int.cast_abs, Int.abs_eq_natAbs, Int.cast_natCast]
  simp only [habs]
  rcases lt_or_gt_of_ne hn with hlt | hgt
  · rw [if_pos hlt, abs_of_neg (Int.cast_lt_zero.mpr hlt), Int.cast_neg, Int.cast_natCast,
      neg_div_neg_eq]
  · rw [if_neg hgt.not_gt, abs_of_pos (Int.cast_pos.mpr hgt), Int.cast_natCast]

theorem map_toRat_reciprocal (x : Fraction) : x.reciprocal.map toRat =
    if x.toRat = 0 then .error .divideByZero else .ok x.toRat⁻¹ := by
  by_cases hx : x.toRat = 0
  · rw [reciprocal_zero hx, if_pos hx]
    rfl
  · obtain ⟨r, hr, hrat⟩ := reciprocal_eq hx
    rw [hr, if_neg hx, ← hrat]
    rfl

theorem map_toRat_div (x y : Fraction) : (x.div y).map toRat =
    if y.toRat = 0 then .error .divideByZero else .ok (x.toRat / y.toRat) := by
  rw [div]
  by_cases hy : y.toRat = 0
  · rw [reciprocal_zero hy, if_pos hy]
    rfl
  · obtain ⟨r, hr, hrat⟩ := reciprocal_eq hy
    rw [hr, if_neg hy, div_eq_mul_inv, ← hrat, ← toRat_mul]
    rfl

theorem map_toRat_pow (x : Fraction) (e : Int) : (x.pow e).map toRat =
    if maxPower < e.natAbs then .error (.domain ("exponent " ++ e.repr ++ " is too large"))
    else if e < 0 ∧ x.toRat = 0 then .error .divideByZero
    else .ok (x.toRat ^ e) := by
  rw [pow]
  by_cases hbig : maxPower < e.natAbs
  · rw [if_pos hbig, if_pos hbig]
    rfl
  rw [if_neg hbig, if_neg hbig]
  by_cases he : e < 0
  · rw [if_pos he]
    by_cases hx : x.toRat = 0
    · rw [reciprocal_zero hx, if_pos ⟨he, hx⟩]
      rfl
    · obtain ⟨r, hr, hrat⟩ := reciprocal_eq hx
      have power : x.toRat ^ e = (r.npow e.natAbs).toRat := by
        rw [toRat_npow, hrat, inv_pow, ← zpow_natCast, ← zpow_neg, Int.ofNat_natAbs_of_nonpos he.le,
          neg_neg]
      rw [hr, if_neg fun h => hx h.2, power]
      rfl
  · have power : x.toRat ^ e = (x.reduce.npow e.natAbs).toRat := by
      rw [toRat_npow, toRat_reduce, ← zpow_natCast, Int.natAbs_of_nonneg (not_lt.mp he)]
    rw [if_neg he, if_neg fun h => he h.1, power]
    rfl

/-- Lowest terms are those of the number. -/
theorem map_reduce_eq (m : Except ArithmeticFault Fraction) :
    m.map reduce = (m.map toRat).map ofRat := by
  rcases m with fault | x
  · rfl
  · exact congrArg Except.ok x.reduce_eq_ofRat

theorem map_reduce_div (x y : Fraction) : (x.div y).map reduce =
    if y.toRat = 0 then .error .divideByZero else .ok (ofRat (x.toRat / y.toRat)) := by
  rw [map_reduce_eq, map_toRat_div]
  split <;> rfl

theorem map_reduce_pow (x : Fraction) (e : Int) : (x.pow e).map reduce =
    if maxPower < e.natAbs then .error (.domain ("exponent " ++ e.repr ++ " is too large"))
    else if e < 0 ∧ x.toRat = 0 then .error .divideByZero
    else .ok (ofRat (x.toRat ^ e)) := by
  rw [map_reduce_eq, map_toRat_pow]
  split
  · rfl
  · split <;> rfl

end Reckon.Fraction
