import Mathlib
import Reckon.Proofs.ExactForm
import Reckon.Proofs.Operand

/-!
# Numbers without a repeating block

The braces of a repeating block are brackets to the tree, so no number in the content of an
expression has one. The value of such a literal has a power of ten below the line
(`NumberParts.Fits.value_finite`), hence an exact form that ends (`Fraction.cycle_eq_nil`). It is in
lowest terms already, and its exact form is read as the very same pair
(`NumberReader.exact_exactParts`).
-/

namespace Reckon

open Notation Expansion NumberParts

/-! ### Division that ends -/

namespace Expansion

variable {d r : Nat} {e : Expansion}

theorem remainder_eq_zero_of_le {n m : Nat} (h : remainder d r n = 0) (hm : n ≤ m) :
    remainder d r m = 0 := by
  induction m, hm using Nat.le_induction with
  | base => exact h
  | succ m _ ih => rw [remainder, ih, Nat.mul_zero, Nat.zero_mod]

theorem remainder_add_mul {m k : Nat} (h : remainder d r m = remainder d r (m + k)) (j : Nat) :
    remainder d r (m + k * j) = remainder d r m := by
  induction j with
  | zero => rfl
  | succ j ih => rw [Nat.mul_succ, Nat.add_comm (k * j), ← Nat.add_assoc, ← remainder_add h, ih]

/-- A division that comes to an end has no period. -/
theorem Expands.cycle_eq_nil (he : Expands d r e) {n : Nat} (h : remainder d r n = 0) :
    e.cycle = [] := by
  cases he with
  | finite _ _ => rfl
  | @periodic m k hk h0 hperiod _ =>
    have hle : n ≤ m + k * n := (Nat.le_mul_of_pos_left n hk).trans (Nat.le_add_left _ _)
    have := remainder_add_mul hperiod n
    rw [remainder_eq_zero_of_le h hle] at this
    exact absurd this.symm h0

theorem remainder_eq_zero {n : Nat} (hr : r < d) (hd : d ∣ 10 ^ n) : remainder d r n = 0 := by
  have hv := digits_value hr n
  have : d ∣ remainder d r n :=
    (Nat.dvd_add_right (Nat.dvd_mul_right d _)).mp (hv ▸ hd.mul_right r)
  exact Nat.eq_zero_of_dvd_of_lt this (remainder_lt hr n)

end Expansion

namespace Fraction

variable {x y : Fraction} {c : Char}

theorem cycle_eq_nil {n : Nat} (h : x.reduce.den ∣ 10 ^ n) : x.expansion.cycle = [] :=
  x.expansion_expands.cycle_eq_nil (remainder_eq_zero (Nat.mod_lt _ x.reduce.den_pos) h)

theorem reduce_den_dvd (x : Fraction) : x.reduce.den ∣ x.den :=
  ⟨_, (x.gcd_mul_den.symm.trans (Nat.mul_comm ..))⟩

theorem scale_eq_ok {e : Int} (h : x.scale e = .ok y) :
    y.num = x.num * tenPow e.natAbs ∧ y.den = x.den ∨
      y.num = x.num ∧ y.den = x.den * tenPow e.natAbs := by
  rw [scale] at h
  obtain ⟨_, -, h⟩ := bind_eq_ok h
  split at h
  · obtain rfl := Except.ok.inj h
    exact .inl ⟨rfl, rfl⟩
  · obtain rfl := Except.ok.inj h
    exact .inr ⟨rfl, rfl⟩

/-- Moving the point keeps a power of ten below the line. -/
theorem scale_den_dvd {e : Int} {n : Nat} (h : x.scale e = .ok y) (hn : x.den ∣ 10 ^ n) :
    ∃ m, y.den ∣ 10 ^ m := by
  rcases scale_eq_ok h with ⟨-, hd⟩ | ⟨-, hd⟩
  · exact ⟨n, hd ▸ hn⟩
  · refine ⟨n + e.natAbs, ?_⟩
    rw [hd, pow_add, tenPow_eq]
    exact Nat.mul_dvd_mul_right hn _

theorem scale_num_nonneg {e : Int} (h : x.scale e = .ok y) (hx : 0 ≤ x.num) : 0 ≤ y.num := by
  rcases scale_eq_ok h with ⟨hn, -⟩ | ⟨hn, -⟩
  · exact hn ▸ Int.mul_nonneg hx (Int.natCast_nonneg _)
  · exact hn ▸ hx

theorem reduce_num_nonneg (h : 0 ≤ x.num) : 0 ≤ x.reduce.num := by
  rw [reduce_num]
  exact Int.ediv_nonneg h (Int.natCast_nonneg _)

end Fraction

/-! ### Values without a block -/

namespace NumberParts

variable {p : NumberParts} {x : Fraction}

/-- The integer part is a sign and digits without leading zeros. -/
theorem Fits.exists_sign (h : p.Fits) :
    ∃ negative whole, p.integer = signChars negative ++ whole ∧ Unsigned whole := by
  have signed {L : List Char → Prop} {w : List Char} (hL : ∀ v, L v → Unsigned v)
      (h : Signed L w) : ∃ negative whole, w = signChars negative ++ whole ∧ Unsigned whole := by
    rcases h with h | ⟨v, rfl, h⟩
    exacts [⟨false, w, rfl, hL w h⟩, ⟨true, v, rfl, hL v h⟩]
  obtain ⟨form, int, f, b, e⟩ := p
  cases form <;> simp only [Fits] at h
  case integer => exact h.1.elim (signed fun _ => .inl) fun h => ⟨false, int, rfl, .inr h⟩
  case decimal | repeatingDecimal => exact signed (fun _ => id) h.1
  case scientific | repeatingScientific =>
    refine signed ?_ h.1
    rintro _ ⟨c, rfl, hc⟩
    exact .inl ⟨c, [], rfl, hc, List.forall_mem_nil _⟩

theorem Fits.repeating_eq_none (h : p.Fits) (hbrace : '\x7b' ∉ p.entries.literal) :
    p.repeating = none := by
  rcases hb : p.repeating with _ | b
  · rfl
  · have hne := (h.block b hb).ne_nil
    refine absurd ?_ hbrace
    rw [literal_eq, hb, Option.getD_some, fractionText, if_neg fun h => hne h.2, blockText, if_neg hne]
    simp

theorem Fits.head?_literal (h : p.Fits) : p.entries.literal.head? = p.integer.head? := by
  obtain ⟨c, ds, hi⟩ := List.exists_cons_of_ne_nil h.integer_ne_nil
  rw [literal_eq, hi]
  rfl

/-- The value of a number without a block is a fraction over a power of ten, with the sign of the
literal. -/
theorem Fits.value_finite (h : p.Fits) (hb : p.repeating = none) (hx : p.value = .ok x) :
    ∃ (y : Fraction) (n : Nat), x = y.reduce ∧ y.den ∣ 10 ^ n ∧
      (p.integer.head? ≠ some '-' → 0 ≤ y.num) := by
  obtain ⟨negative, whole, hi, hw⟩ := h.exists_sign
  have sign (hm : p.integer.head? ≠ some '-') (n : Nat) : 0 ≤ signFactor negative * (n : Int) := by
    cases negative with
    | false => rw [signFactor, if_neg (by decide), one_mul]; exact Int.natCast_nonneg n
    | true => exact absurd (by rw [hi]; rfl) hm
  have digits := @Fraction.ofDigits_finite negative _ _ hw.digits hw.ne_nil h.optionalDigits.digits
  rw [← hi] at digits
  rw [value, hb, Option.getD_none, Fraction.ofParts, digits] at hx
  obtain ⟨y, hy, hx⟩ := bind_eq_ok hx
  obtain ⟨den, num⟩ : y.den ∣ 10 ^ (p.plain.getD []).length ∧
      (p.integer.head? ≠ some '-' → 0 ≤ y.num) := by
    rcases hten : checkTenPower (p.plain.getD []).length with fault | _
    · rw [hten] at hy
      cases hy
    · rw [hten] at hy
      obtain rfl := Except.ok.inj hy
      exact ⟨dvd_rfl, fun hm => sign hm _⟩
  rcases he : p.exponent with _ | text
  · rw [he] at hx
    exact ⟨y, _, (Except.ok.inj hx).symm, den, num⟩
  · rw [he] at hx
    obtain ⟨e, -, hx⟩ := bind_eq_ok hx
    obtain ⟨z, hz, hx⟩ := bind_eq_ok hx
    obtain ⟨n, hn⟩ := Fraction.scale_den_dvd hz den
    exact ⟨z, n, (Except.ok.inj hx).symm, hn, fun hm => Fraction.scale_num_nonneg hz (num hm)⟩

end NumberParts

/-- A fraction in lowest terms whose exact form has no block. -/
structure Fraction.Finite (x : Fraction) : Prop where
  lowest : x.reduce = x
  cycle : x.expansion.cycle = []

theorem NumberParts.Fits.finite {p : NumberParts} {x : Fraction} (h : p.Fits)
    (hb : p.repeating = none) (hx : p.value = .ok x) :
    x.Finite ∧ (p.integer.head? ≠ some '-' → 0 ≤ x.num) := by
  obtain ⟨y, n, rfl, hd, hs⟩ := h.value_finite hb hx
  have lowest := y.reduce_reduce
  refine ⟨⟨lowest, Fraction.cycle_eq_nil (n := n) ?_⟩, fun hm => Fraction.reduce_num_nonneg (hs hm)⟩
  rw [lowest]
  exact y.reduce_den_dvd.trans hd

/-! ### The exact form of such a number -/

namespace Fraction

variable {x : Fraction} {c : Char}

theorem Finite.mem_exactChars (h : x.Finite) (hc : c ∈ x.exactChars) : isSigned c ∨ c = '.' := by
  have fits := x.exactParts_fits
  have noBlock : x.exactParts.repeating = none := by
    rw [exactParts, Expansion.cycleChars, h.cycle]
    rfl
  rw [← exactParts_literal, literal_eq, noBlock] at hc
  rcases List.mem_append.mp hc with hc | hc
  · exact .inl (fits.integer_isSigned c hc)
  · rw [show exponentText x.exactParts.exponent = [] from rfl, List.append_nil, fractionText] at hc
    split at hc
    · cases hc
    · rcases List.mem_cons.mp hc with rfl | hc
      · exact .inr rfl
      · rw [show blockText (Option.getD none []) = [] from rfl, List.append_nil] at hc
        exact .inl (isSigned_of_isDigit (fits.optionalDigits.digits c hc))

theorem head?_exactChars (h : x.reduce = x) (hx : 0 ≤ x.num) : x.exactChars.head? ≠ some '-' := by
  have positive : x.reduce.isNegative = false := by
    rw [h, isNegative, decide_eq_false_iff_not]
    exact Int.not_lt.mpr hx
  obtain ⟨c, cs, hcs⟩ := List.exists_cons_of_ne_nil (unsigned_decimalChars
    (x.reduce.num.natAbs / x.reduce.den)).ne_nil
  have digit := (unsigned_decimalChars (x.reduce.num.natAbs / x.reduce.den)).digits c
    (hcs ▸ List.mem_cons_self ..)
  simp only [exactChars, positive, hcs]
  rintro ⟨⟩
  exact absurd digit (by decide)

end Fraction

namespace NumberReader

/-- The reader of exact numbers gets the parts by name and puts the literal together again where they
have no value. -/
theorem exact_entries (p : NumberParts) : NumberReader.exact p.entries =
    p.value.mapError fun fault =>
      .invalidNumber (String.ofList p.entries.literal) fault.headline := by
  have integer : p.entries.lookup .integerPart = some p.integer := rfl
  have plain : p.entries.text .plainFraction = p.plain.getD [] := by
    obtain ⟨form, int, f, b, e⟩ := p
    cases f <;> cases b <;> cases e <;> rfl
  have repeating : p.entries.text .repeatingFraction = p.repeating.getD [] := by
    obtain ⟨form, int, f, b, e⟩ := p
    cases f <;> cases b <;> cases e <;> rfl
  have exponent : p.entries.lookup .exponent = p.exponent := by
    obtain ⟨form, int, f, b, e⟩ := p
    cases f <;> cases b <;> cases e <;> rfl
  simp only [NumberReader.exact, integer, plain, repeating, exponent, NumberParts.value]
  cases Fraction.ofParts p.integer (p.plain.getD []) (p.repeating.getD []) p.exponent <;> rfl

theorem exact_eq_ok_iff {p : NumberParts} {x : Fraction} :
    NumberReader.exact p.entries = .ok x ↔ p.value = .ok x := by
  rw [exact_entries, mapError_eq_ok_iff]

/-- The exact form of a number in lowest terms is read as that number. -/
theorem exact_exactParts {x : Fraction} (h : x.reduce = x)
    (hn : x.fractionDigits ≤ maxLiteralExponent) :
    NumberReader.exact x.exactParts.entries = .ok x := by
  rw [Fraction.fractionDigits_eq] at hn
  rw [exact_eq_ok_iff, Fraction.value_exactParts, Fraction.checkTenPower_eq, if_pos hn]
  exact congrArg Except.ok h

end NumberReader

end Reckon
