import Mathlib
import Reckon.Proofs.ExactForm
import Reckon.Proofs.Operands

/-!
# The exact form is canonical

How long the parts of an exact form are is a matter of the denominator. The remainders of a division
by `2 ^ a * 5 ^ b * m` are zero, or return, at places that can be told from `a`, `b` and `m`
(`remainder_eq_zero_iff`, `remainder_eq_iff`), and the division stops at the first of them
(`Settled`). So there are `max a b` digits before a period, which is as long as the order of ten
modulo `m`, and a few more where the period has to be turned.

`decimalText` writes a number down from the digits that it has behind the point, without a division.
The exact form is that text for the right numbers of digits, and no other number has it
(`exact_canonical`).
-/

namespace Reckon

open Notation Expansion NumberParts

/-! ### Powers of ten -/

section
variable {a b m i k y : ℕ}

/-- A power of ten holds the twos and the fives, a factor without them all the rest. -/
theorem dvd_tenPow_mul_iff (hm : m.Coprime 10) (hy : y.Coprime 10) :
    2 ^ a * 5 ^ b * m ∣ 10 ^ i * y ↔ max a b ≤ i ∧ m ∣ y := by
  have ten : 10 ^ i = 2 ^ i * 5 ^ i := (Nat.mul_pow 2 5 i).symm ▸ rfl
  rw [max_le_iff]
  constructor
  · intro h
    have h2 : 2 ^ a ∣ 2 ^ i * (5 ^ i * y) := by
      rw [← Nat.mul_assoc, ← ten]
      exact (Dvd.intro _ (Nat.mul_assoc ..).symm).trans h
    have h5 : 5 ^ b ∣ 5 ^ i * (2 ^ i * y) := by
      rw [Nat.mul_left_comm, ← Nat.mul_assoc, ← ten]
      exact ((Dvd.intro_left _ rfl).mul_right _).trans h
    have c2 : (2 ^ a).Coprime (5 ^ i * y) := Nat.Coprime.pow_left a
      (Nat.Coprime.mul_right (Nat.Coprime.pow_right i (by decide))
        (hy.coprime_dvd_right (by decide)).symm)
    have c5 : (5 ^ b).Coprime (2 ^ i * y) := Nat.Coprime.pow_left b
      (Nat.Coprime.mul_right (Nat.Coprime.pow_right i (by decide))
        (hy.coprime_dvd_right (by decide)).symm)
    refine ⟨⟨?_, ?_⟩, ?_⟩
    · exact (Nat.pow_dvd_pow_iff_le_right (by decide)).mp (c2.dvd_of_dvd_mul_right h2)
    · exact (Nat.pow_dvd_pow_iff_le_right (by decide)).mp (c5.dvd_of_dvd_mul_right h5)
    · exact (hm.pow_right i).dvd_of_dvd_mul_left ((Dvd.intro_left _ rfl).trans h)
  · rintro ⟨⟨ha, hb⟩, h⟩
    rw [ten]
    exact Nat.mul_dvd_mul (Nat.mul_dvd_mul (Nat.pow_dvd_pow 2 ha) (Nat.pow_dvd_pow 5 hb)) h

theorem dvd_tenPow_sub_one_iff : m ∣ 10 ^ k - 1 ↔ orderOf (10 : ZMod m) ∣ k := by
  rw [orderOf_dvd_iff_pow_eq_one, ← Nat.modEq_iff_dvd' (Nat.one_le_pow _ _ (by decide)),
    ← ZMod.natCast_eq_natCast_iff]
  push_cast
  exact eq_comm

end

namespace Expansion

/-! ### The places of a division -/

section
variable {d n i : ℕ}

theorem remainder_mod (d n i : ℕ) : remainder d (n % d) i = 10 ^ i * n % d := by
  induction i with
  | zero => rw [remainder, pow_zero, Nat.one_mul]
  | succ i ih => rw [remainder, ih, Nat.mul_mod_mod, ← Nat.mul_assoc, ← pow_succ']

/-- A digit is the last one of the quotient so far. -/
theorem digitAt_mod (hd : 0 < d) (n i : ℕ) :
    digitAt d (n % d) i = 10 ^ (i + 1) * n / d % 10 := by
  have split : 10 ^ (i + 1) * n = 10 * (10 ^ i * n % d) + d * (10 * (10 ^ i * n / d)) := by
    rw [pow_succ', Nat.mul_assoc]
    conv_lhs => rw [← Nat.div_add_mod (10 ^ i * n) d]
    ring
  have small : 10 * (10 ^ i * n % d) / d < 10 :=
    Nat.div_lt_of_lt_mul (Nat.mul_comm d 10 ▸ Nat.mul_lt_mul_of_pos_left (Nat.mod_lt _ hd) (by decide))
  rw [digitAt, remainder_mod, split, Nat.add_mul_div_left _ _ hd, Nat.add_mul_mod_self_left,
    Nat.mod_eq_of_lt small]

end

section
variable {d a b m n i k : ℕ} (hd : d = 2 ^ a * 5 ^ b * m) (hm : m.Coprime 10) (hn : n.Coprime d)
include hd hm hn

theorem remainder_eq_zero_iff : remainder d (n % d) i = 0 ↔ m = 1 ∧ max a b ≤ i := by
  rw [remainder_mod, ← Nat.dvd_iff_mod_eq_zero, hn.symm.dvd_mul_right, hd, ← Nat.mul_one (10 ^ i),
    dvd_tenPow_mul_iff hm (by decide), Nat.dvd_one, and_comm]

theorem remainder_eq_iff (hk : 0 < k) : remainder d (n % d) i = remainder d (n % d) (i + k) ↔
    max a b ≤ i ∧ orderOf (10 : ZMod m) ∣ k := by
  have coprime : (10 ^ k - 1).Coprime 10 :=
    ((Nat.coprime_self_sub_left (Nat.one_le_pow _ _ (by decide))).mpr
      (Nat.coprime_one_left _)).coprime_dvd_right (dvd_pow_self 10 hk.ne')
  have cancel : 10 ^ i * n % d = 10 ^ (i + k) * n % d ↔ 10 ^ i ≡ 10 ^ (i + k) [MOD d] :=
    ⟨fun h => Nat.ModEq.cancel_right_of_coprime hn.symm h, fun h => h.mul_right n⟩
  have shift : 10 ^ (i + k) - 10 ^ i = 10 ^ i * (10 ^ k - 1) := by
    rw [Nat.mul_sub, ← pow_add, Nat.mul_one]
  rw [remainder_mod, remainder_mod, cancel,
    Nat.modEq_iff_dvd' (Nat.pow_le_pow_right (by decide) (Nat.le_add_right i k)), shift, hd,
    dvd_tenPow_mul_iff hm coprime, dvd_tenPow_sub_one_iff]

/-- A division that stops does so as soon as it can. -/
theorem Fresh.stop_place (fresh : Fresh d (n % d) i) (h : remainder d (n % d) i = 0) :
    m = 1 ∧ i = max a b := by
  obtain ⟨h1, hle⟩ := (remainder_eq_zero_iff hd hm hn).mp h
  have stop := (remainder_eq_zero_iff hd hm hn).mpr ⟨h1, le_rfl⟩
  exact ⟨h1, (fresh.le (.inl stop)).antisymm hle⟩

/-- A remainder that returns is the first one that can, and does so as soon as it can. -/
theorem Fresh.return_place (hk : 0 < k) (fresh : Fresh d (n % d) (i + k))
    (h : remainder d (n % d) i = remainder d (n % d) (i + k)) :
    m ≠ 1 ∧ i = max a b ∧ k = orderOf (10 : ZMod m) := by
  obtain ⟨hle, hdvd⟩ := (remainder_eq_iff hd hm hn hk).mp h
  have order : 0 < orderOf (10 : ZMod m) := Nat.pos_of_dvd_of_pos hdvd hk
  have place : i + k ≤ max a b + k := fresh.le (.inr ⟨max a b, Nat.lt_add_of_pos_right hk,
    (remainder_eq_iff hd hm hn hk).mpr ⟨le_rfl, hdvd⟩⟩)
  have period : i + k ≤ i + orderOf (10 : ZMod m) := fresh.le (.inr ⟨i,
    Nat.lt_add_of_pos_right order, (remainder_eq_iff hd hm hn order).mpr ⟨hle, dvd_rfl⟩⟩)
  refine ⟨fun h1 => ?_, hle.antisymm' (Nat.le_of_add_le_add_right place),
    (Nat.le_of_dvd hk hdvd).antisymm' (Nat.le_of_add_le_add_left period)⟩
  exact fresh.ne_zero i (Nat.lt_add_of_pos_right hk)
    ((remainder_eq_zero_iff hd hm hn).mpr ⟨h1, hle⟩)

variable {e : Expansion}

/-- An expansion without a block has the digits that the factors two and five need. -/
theorem Settled.finite_places (settled : Settled d (n % d) e) (h1 : m = 1) :
    e = ⟨digits d (n % d) 0 (max a b), []⟩ ∧
      ∀ i, max a b = i + 1 → digitAt d (n % d) i ≠ 0 := by
  cases settled with
  | finite fresh h =>
    obtain ⟨-, rfl⟩ := fresh.stop_place hd hm hn h
    exact ⟨rfl, fun i hi => digitAt_ne_zero (fresh.ne_zero i (by omega)) (hi ▸ h)⟩
  | periodic fresh hk h => exact absurd h1 (fresh.return_place hd hm hn hk h).1

/-- One with a block has the same digits, and those over which the block is turned, in front of it. -/
theorem Settled.periodic_places (settled : Settled d (n % d) e) (h1 : m ≠ 1) :
    0 < orderOf (10 : ZMod m) ∧ ∃ p,
      e = ⟨digits d (n % d) 0 p, digits d (n % d) p (orderOf (10 : ZMod m))⟩ ∧ max a b ≤ p ∧
      Turned d (n % d) (max a b) p ∧ ∀ i, p = i + 1 → digitAt d (n % d) i ≠ 0 := by
  cases settled with
  | finite fresh h => exact absurd (fresh.stop_place hd hm hn h).1 h1
  | @periodic s k p fresh hk h hs hp turned hlast =>
    obtain ⟨-, rfl, rfl⟩ := fresh.return_place hd hm hn hk h
    exact ⟨hk, p, rfl, hs, turned, hlast⟩

end

end Expansion

namespace Fraction

/-! ### Writing a number down -/

/-- The digit of a number at a place behind the point. The first place is `1`. -/
def decimalDigit (q : ℚ) (i : ℕ) : ℕ := ⌊|q| * 10 ^ i⌋₊ % 10

/-- The digits at the `n` places after the place `s`. -/
def decimalDigits (q : ℚ) (s n : ℕ) : List Char :=
  (List.range' (s + 1) n).map fun i => (decimalDigit q i).digitChar

/-- A number down to the place `p` and then, between the braces of a block, to the place `p + k`. -/
def decimalText (q : ℚ) (p k : ℕ) : List Char :=
  (if q < 0 then ['-'] else []) ++ Nat.toDigits 10 ⌊|q|⌋₊ ++
    if p = 0 ∧ k = 0 then []
    else '.' :: decimalDigits q 0 p ++
      if k = 0 then [] else '\x7b' :: decimalDigits q p k ++ ['\x7d', 'R']

variable {x y : Fraction}

theorem abs_toRat (x : Fraction) : |x.toRat| = (x.reduce.num.natAbs : ℚ) / x.reduce.den := by
  rw [← x.toRat_reduce, toRat, abs_div, Nat.abs_cast, ← Int.cast_abs, Int.abs_eq_natAbs,
    Int.cast_natCast]

theorem decimalDigit_toRat (x : Fraction) (i : ℕ) : decimalDigit x.toRat (i + 1) =
    digitAt x.reduce.den (x.reduce.num.natAbs % x.reduce.den) i := by
  have scaled : |x.toRat| * 10 ^ (i + 1) =
      ((10 ^ (i + 1) * x.reduce.num.natAbs : ℕ) : ℚ) / (x.reduce.den : ℕ) := by
    rw [abs_toRat]
    push_cast
    ring
  rw [decimalDigit, scaled, Nat.floor_div_eq_div, digitAt_mod x.reduce.den_pos]

theorem decimalDigits_toRat (x : Fraction) (s n : ℕ) : decimalDigits x.toRat s n =
    (digits x.reduce.den (x.reduce.num.natAbs % x.reduce.den) s n).map Nat.digitChar := by
  rw [decimalDigits, digits, Nat.add_comm s, ← List.map_add_range', List.map_map, List.map_map]
  refine List.map_congr_left fun i _ => ?_
  rw [Function.comp_apply, Function.comp_apply, Nat.add_comm 1, decimalDigit_toRat]

theorem decimalDigits_eq_nil_iff {q : ℚ} {s n : ℕ} : decimalDigits q s n = [] ↔ n = 0 := by
  rw [decimalDigits, List.map_eq_nil_iff, List.range'_eq_nil_iff]

theorem isNegative_reduce (x : Fraction) : x.reduce.isNegative = decide (x.toRat < 0) := by
  have hden : (0 : ℚ) < x.reduce.den := Nat.cast_pos.mpr x.reduce.den_pos
  rw [isNegative, decide_eq_decide, ← x.toRat_reduce, toRat, div_lt_iff₀ hden, zero_mul,
    Int.cast_lt_zero]

/-- The digits of an expansion are digits of the number. -/
theorem exactChars_eq {p k : ℕ}
    (h : x.expansion = ⟨digits x.reduce.den (x.reduce.num.natAbs % x.reduce.den) 0 p,
      digits x.reduce.den (x.reduce.num.natAbs % x.reduce.den) p k⟩) :
    x.exactChars = decimalText x.toRat p k := by
  have whole : ⌊|x.toRat|⌋₊ = x.reduce.num.natAbs / x.reduce.den := by
    rw [abs_toRat, Nat.floor_div_eq_div]
  have plain : x.expansion.plainChars = decimalDigits x.toRat 0 p := by
    rw [h, decimalDigits_toRat, Expansion.plainChars]
  have cycle : x.expansion.cycleChars = decimalDigits x.toRat p k := by
    rw [h, decimalDigits_toRat, Expansion.cycleChars]
  simp only [exactChars, decimalText, fractionChars_eq, plain, cycle, fractionText, blockText,
    decimalDigits_eq_nil_iff, whole, decimalChars_eq, isNegative_reduce, decide_eq_true_eq,
    List.cons_append]

theorem signChars_append_inj {negative negative' : Bool} {w w' : List Char} (h : Digits w)
    (h' : Digits w') (he : signChars negative ++ w = signChars negative' ++ w') :
    negative = negative' ∧ w = w' := by
  have minus {v : List Char} (hv : Digits ('-' :: v)) : False :=
    absurd (hv '-' (List.mem_cons_self ..)) (by decide)
  cases negative <;> cases negative'
  · exact ⟨rfl, he⟩
  · have he : w = '-' :: w' := he
    exact (minus (he ▸ h)).elim
  · have he : '-' :: w = w' := he
    exact (minus (he ▸ h')).elim
  · exact ⟨rfl, List.tail_eq_of_cons_eq he⟩

/-- No two numbers have the same exact form. -/
theorem exact_eq_iff : x.exact = y.exact ↔ x.same y := by
  rw [same_iff]
  refine ⟨fun h => ?_, exact_congr⟩
  have parts : x.exactParts = y.exactParts := by
    have chars : x.exactChars = y.exactChars := String.ofList_injective h
    exact Option.some.inj (by rw [← ofLiteral_exactChars, ← ofLiteral_exactChars, chars])
  obtain ⟨sign, whole⟩ := signChars_append_inj (unsigned_decimalChars _).digits
    (unsigned_decimalChars _).digits (congrArg integer parts)
  have plain := congrArg (fun p => p.plain.getD []) parts
  have cycle := congrArg (fun p => p.repeating.getD []) parts
  simp only [exactParts, optionalText_getD] at plain cycle
  rw [toRat_eq_magnitude, toRat_eq_magnitude, sign, plain, cycle, wholeChars, whole, wholeChars]

/-- How an exact form is written follows from the denominator in lowest terms. If it has factors two
and five only, the form ends at the last place that it needs. Otherwise it has a block of as many
digits as ten has order modulo the other factors. The digits before the block are those that the
factors two and five need, and where the last of them is zero, those that follow up to the next
digit that is not. So a form belongs to one number. -/
theorem exact_canonical (x : Fraction) {a b m : ℕ} (hm : m.Coprime 10)
    (hd : x.reduce.den = 2 ^ a * 5 ^ b * m) :
    (m = 1 → x.exact.toList = decimalText x.toRat (max a b) 0 ∧
      (max a b ≠ 0 → decimalDigit x.toRat (max a b) ≠ 0)) ∧
    (m ≠ 1 → 0 < orderOf (10 : ZMod m) ∧ ∃ p,
      x.exact.toList = decimalText x.toRat p (orderOf (10 : ZMod m)) ∧
      (max a b = 0 ∨ decimalDigit x.toRat (max a b) ≠ 0 → p = max a b) ∧
      (max a b ≠ 0 ∧ decimalDigit x.toRat (max a b) = 0 →
        IsLeast {i | max a b < i ∧ decimalDigit x.toRat i ≠ 0} p) ∧
      (p ≠ 0 → decimalDigit x.toRat p ≠ 0)) ∧
    ∀ y : Fraction, x.exact = y.exact ↔ x.same y := by
  have settled : Settled _ _ x.expansion :=
    ofRemainder_settled (Nat.mod_lt x.reduce.num.natAbs x.reduce.den_pos)
  have coprime := x.coprime_reduce
  have digit := x.decimalDigit_toRat
  have text {p k : ℕ} := x.exactChars_eq (p := p) (k := k)
  rw [exact, String.toList_ofList]
  refine ⟨fun h1 => ?_, fun h1 => ?_, fun y => exact_eq_iff⟩
  · obtain ⟨he, hlast⟩ := settled.finite_places hd hm coprime h1
    refine ⟨text he, fun hq => ?_⟩
    obtain ⟨i, hi⟩ := Nat.exists_eq_succ_of_ne_zero hq
    rw [hi, digit]
    exact hlast i hi
  · obtain ⟨order, p, he, hle, turned, hlast⟩ := settled.periodic_places hd hm coprime h1
    have last (hp : p ≠ 0) : decimalDigit x.toRat p ≠ 0 := by
      obtain ⟨i, rfl⟩ := Nat.exists_eq_succ_of_ne_zero hp
      exact (digit i).symm ▸ hlast i rfl
    have zeros (i : ℕ) (hi : max a b ≤ i) (hip : i < p) : i ≠ 0 ∧ decimalDigit x.toRat i = 0 := by
      obtain ⟨j, rfl, h0⟩ := turned i hi hip
      exact ⟨Nat.succ_ne_zero j, (digit j).trans h0⟩
    refine ⟨order, p, text he, fun hq => ?_, ?_, last⟩
    · refine hle.antisymm' (not_lt.mp fun hlt => ?_)
      obtain ⟨hne, h0⟩ := zeros _ le_rfl hlt
      exact hq.elim hne (· h0)
    · rintro ⟨hq, h0⟩
      have beyond : max a b < p := lt_of_le_of_ne hle fun hsp => last (hsp ▸ hq) (hsp ▸ h0)
      refine ⟨⟨beyond, last (Nat.ne_zero_of_lt beyond)⟩, ?_⟩
      rintro i ⟨hi, hne⟩
      exact not_lt.mp fun hip => hne (zeros i hi.le hip).2

/-- `0.103{3}R`: the second digit of `31/300` is zero, so the digit after it stands before the block
as well. -/
theorem exact_canonical_turned :
    (Nat.Coprime 3 10 ∧ (reduce ⟨31, 300, by decide⟩).den = 2 ^ 2 * 5 ^ 2 * 3) ∧
    ∃ p, IsLeast {i | 2 < i ∧ decimalDigit (31 / 300) i ≠ 0} p ∧
      (exact ⟨31, 300, by decide⟩).toList = decimalText (31 / 300) p (orderOf (10 : ZMod 3)) := by
  have hd : (reduce ⟨31, 300, by decide⟩).den = 2 ^ 2 * 5 ^ 2 * 3 := by decide
  have value : toRat ⟨31, 300, by decide⟩ = 31 / 300 := by norm_num [toRat]
  have second : decimalDigit (31 / 300) 2 = 0 := by
    rw [← value, decimalDigit_toRat]
    decide
  obtain ⟨-, periodic, -⟩ := exact_canonical ⟨31, 300, by decide⟩ (by decide) hd
  obtain ⟨-, p, text, -, least, -⟩ := periodic (by decide)
  rw [value] at text least
  exact ⟨⟨by decide, hd⟩, p, least ⟨by decide, second⟩, text⟩

end Fraction

end Reckon
