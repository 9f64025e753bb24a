import Mathlib
import Reckon.Fraction.Exact
import Reckon.Proofs.LiteralValue
import Reckon.Proofs.LongDivision
import Reckon.Proofs.Numeral

/-!
# The exact form is read back

Writing and reading meet at `exactParts`, the parts of the exact form of a fraction: they fit, they
write the exact form (`exactParts_literal`), and so they are what the form is taken apart into. The
digits that the division finds denote what was divided (`Expands.magnitude`), with the whole part
before them the fraction (`toRat_eq_magnitude`), so reading them gives its lowest terms. The power of
ten that the reading takes has as many zeros as the form has digits behind the point, which is all
that can go wrong.
-/

namespace Reckon

open Notation Expansion NumberParts

/-! ### The digits of an expansion -/

namespace Expansion

variable {d r : Nat} {e : Expansion}

def plainChars (e : Expansion) : List Char := e.plain.map Nat.digitChar

def cycleChars (e : Expansion) : List Char := e.cycle.map Nat.digitChar

theorem digits_lt (hr : r < d) {s n c : Nat} (h : c ∈ digits d r s n) : c < 10 := by
  obtain ⟨i, _, _, rfl⟩ := mem_digits h
  exact digitAt_lt hr i

theorem fractionDigits_digits (hr : r < d) {n : Nat} (h : ∀ i, n = i + 1 → digitAt d r i ≠ 0)
    (hne : digits d r 0 n ≠ []) : FractionDigits ((digits d r 0 n).map Nat.digitChar) := by
  cases n with
  | zero => exact absurd rfl hne
  | succ i =>
    refine ⟨(digits d r 0 i).map Nat.digitChar, (digitAt d r i).digitChar, ?_,
      digits_map_digitChar fun _ => digits_lt hr, isNonZero_digitChar (digitAt_lt hr i) (h i rfl)⟩
    rw [digits_succ, Nat.zero_add, List.map_append, List.map_singleton]

theorem digitAt_ne_zero {i : Nat} (h0 : remainder d r i ≠ 0) (h : remainder d r (i + 1) = 0) :
    digitAt d r i ≠ 0 := by
  intro hd
  have := step_eq (d := d) (r := r) i
  rw [hd, h] at this
  omega

theorem Expands.plainChars (hr : r < d) (he : Expands d r e) (hne : e.plain ≠ []) :
    FractionDigits e.plainChars := by
  cases he with
  | finite h0 h =>
    exact fractionDigits_digits hr (fun i hi => digitAt_ne_zero (h0 i (by omega)) (hi ▸ h)) hne
  | periodic hk h0 h hlast => exact fractionDigits_digits hr hlast hne

theorem Expands.cycleChars (hr : r < d) (he : Expands d r e) (hne : e.cycle ≠ []) :
    Block e.cycleChars := by
  cases he with
  | finite h0 h => exact absurd rfl hne
  | @periodic m k hk h0 h hlast =>
    refine ⟨digits_map_digitChar fun _ => digits_lt hr, ?_⟩
    obtain ⟨i, h1, h2, hi⟩ := exists_digit_ne_zero hk h0 h
    refine ⟨(digitAt d r i).digitChar, List.mem_map_of_mem (List.mem_map_of_mem ?_),
      isNonZero_digitChar (digitAt_lt hr i) hi⟩
    exact List.mem_range'_1.mpr ⟨h1, h2⟩

theorem Expands.eq_zero (he : Expands d r e) (hp : e.plain = []) (hc : e.cycle = []) : r = 0 := by
  cases he with
  | @finite n h0 h =>
    have := length_digits (d := d) (r := r) 0 n
    rw [show digits d r 0 n = [] from hp] at this
    obtain rfl : 0 = n := this
    exact h
  | @periodic m k hk h0 h hlast =>
    have := length_digits (d := d) (r := r) m k
    rw [show digits d r m k = [] from hc] at this
    exact absurd this.symm hk.ne'

/-- The quotient of a prefix: what the first `n` digits are worth. -/
theorem digits_value (hr : r < d) (n : Nat) :
    d * digitsValue ((digits d r 0 n).map Nat.digitChar) + remainder d r n = 10 ^ n * r := by
  induction n with
  | zero => simp [digits_zero, digitsValue, remainder]
  | succ n ih =>
    rw [digits_succ, Nat.zero_add, List.map_append, List.map_singleton, digitsValue_append,
      digitsValue_digitChar (digitAt_lt hr n), List.length_singleton, pow_one]
    generalize digitsValue ((digits d r 0 n).map Nat.digitChar) = v at ih
    calc
      d * (10 * v + digitAt d r n) + remainder d r (n + 1)
      _ = 10 * (d * v) + (d * digitAt d r n + remainder d r (n + 1)) := by ring
      _ = 10 * (d * v + remainder d r n) := by rw [← step_eq]; ring
      _ = 10 ^ (n + 1) * r := by rw [ih]; ring

/-- An expansion denotes the quotient that it is the expansion of. -/
theorem Expands.magnitude (hr : r < d) (he : Expands d r e) :
    Literal.magnitude [] e.plainChars e.cycleChars = (r : ℚ) / d := by
  have hden : (d : ℚ) ≠ 0 := Nat.cast_ne_zero.mpr (Nat.ne_zero_of_lt hr)
  have value (n : ℕ) : (d : ℚ) * digitsValue ((digits d r 0 n).map Nat.digitChar) +
      remainder d r n = 10 ^ n * r := mod_cast digits_value hr n
  cases he with
  | @finite n h0 h =>
    have hn := value n
    rw [h, Nat.cast_zero, add_zero] at hn
    rw [Expansion.plainChars, Expansion.cycleChars, List.map_nil, Fraction.magnitude_finite,
      List.nil_append, List.length_map, length_digits, div_eq_div_iff (by positivity) hden,
      mul_comm, hn, mul_comm]
  | @periodic m k hk h0 h hlast =>
    have hm := value m
    have hn := value (m + k)
    have hcycle : (digits d r m k).map Nat.digitChar ≠ [] := by
      intro hnil
      have := congrArg List.length hnil
      rw [List.length_map, length_digits] at this
      exact hk.ne' this
    have hpow : (10 : ℚ) ^ (m + k) - 10 ^ m ≠ 0 :=
      (sub_pos.mpr (pow_lt_pow_right₀ (by norm_num) (by omega))).ne'
    rw [← digits_append, Nat.zero_add, List.map_append, ← h] at hn
    rw [Expansion.plainChars, Expansion.cycleChars, Fraction.magnitude_periodic hcycle,
      List.nil_append, List.length_map, List.length_map, length_digits, length_digits,
      div_eq_div_iff hpow hden]
    linear_combination hn - hm

end Expansion

namespace Fraction

/-! ### The parts of the exact form -/

variable {x : Fraction}

/-- A text, if there is any. -/
def optionalText (cs : List Char) : Option (List Char) := if cs = [] then none else some cs

theorem optionalText_getD (cs : List Char) : (optionalText cs).getD [] = cs := by
  rw [optionalText]
  split
  · next h => exact h.symm
  · rfl

theorem optionalText_eq_some {cs ds : List Char} :
    optionalText cs = some ds ↔ cs ≠ [] ∧ cs = ds := by
  rw [optionalText]
  split
  · next h => simp [h]
  · next h => simp [h]

/-- The digits before the point. -/
def wholeChars (x : Fraction) : List Char := decimalChars (x.reduce.num.natAbs / x.reduce.den)

def exactParts (x : Fraction) : NumberParts where
  form := formOf (x.expansion.plain != []) (x.expansion.cycle != []) false
  integer := signChars x.reduce.isNegative ++ x.wholeChars
  plain := optionalText x.expansion.plainChars
  repeating := optionalText x.expansion.cycleChars
  exponent := none

theorem fractionChars_eq (e : Expansion) :
    fractionChars e = fractionText e.plainChars e.cycleChars := by
  obtain ⟨plain, cycle⟩ := e
  cases plain <;> cases cycle <;>
    simp [fractionChars, fractionText, blockText, Expansion.plainChars, Expansion.cycleChars]

theorem exactParts_literal (x : Fraction) : x.exactParts.entries.literal = x.exactChars := by
  rw [literal_eq, exactParts, optionalText_getD, optionalText_getD, ← fractionChars_eq]
  simp [exponentText, exactChars, signChars, wholeChars]

theorem expansion_expands (x : Fraction) :
    Expands x.reduce.den (x.reduce.num.natAbs % x.reduce.den) x.expansion :=
  ofRemainder_expands (Nat.mod_lt _ x.reduce.den_pos)

/-- Without a fraction there is no minus sign before zero. -/
theorem isNegative_eq_false (h : x.reduce.num.natAbs % x.reduce.den = 0)
    (h' : x.reduce.num.natAbs / x.reduce.den = 0) : x.reduce.isNegative = false := by
  have h0 : x.reduce.num.natAbs = 0 := by
    rw [← Nat.div_add_mod x.reduce.num.natAbs x.reduce.den, h, h', Nat.mul_zero]
  rw [isNegative, Int.natAbs_eq_zero.mp h0]
  rfl

theorem signed_signChars {L : List Char → Prop} {w : List Char} (negative : Bool) (h : L w) :
    Signed L (signChars negative ++ w) := by
  cases negative with
  | true => exact .inr ⟨w, rfl, h⟩
  | false => exact .inl h

theorem exactParts_fits (x : Fraction) : x.exactParts.Fits := by
  have he := x.expansion_expands
  have hr : x.reduce.num.natAbs % x.reduce.den < x.reduce.den := Nat.mod_lt _ x.reduce.den_pos
  have whole : WholePart x.exactParts.integer := signed_signChars _ (unsigned_decimalChars _)
  have plain (hp : x.expansion.plain ≠ []) : FractionDigits x.expansion.plainChars :=
    he.plainChars hr hp
  have hplain : x.expansion.plainChars = [] ↔ x.expansion.plain = [] := List.map_eq_nil_iff
  have hcycle : x.expansion.cycleChars = [] ↔ x.expansion.cycle = [] := List.map_eq_nil_iff
  have form : x.exactParts.form =
    formOf (x.expansion.plain != []) (x.expansion.cycle != []) false := rfl
  by_cases hc : x.expansion.cycle = []
  · have noCycle : x.exactParts.repeating = none := if_pos (hcycle.mpr hc)
    by_cases hp : x.expansion.plain = []
    · have noPlain : x.exactParts.plain = none := if_pos (hplain.mpr hp)
      rw [hc, hp] at form
      rw [Fits, form]
      refine ⟨?_, noPlain, noCycle, rfl⟩
      by_cases h0 : x.reduce.num.natAbs / x.reduce.den = 0
      · right
        rw [exactParts, wholeChars, isNegative_eq_false (he.eq_zero hp hc) h0, h0]
        rfl
      · exact .inl (signed_signChars _ (positive_decimalChars h0))
    · rw [hc, bne_iff_ne.mpr hp] at form
      rw [Fits, form]
      exact ⟨whole, ⟨_, optionalText_eq_some.mpr ⟨hplain.not.mpr hp, rfl⟩, plain hp⟩, noCycle, rfl⟩
  · rw [bne_iff_ne.mpr hc] at form
    rw [Fits, form]
    refine ⟨whole, fun ds hds => ?_, ⟨_, optionalText_eq_some.mpr ⟨hcycle.not.mpr hc, rfl⟩,
      he.cycleChars hr hc⟩, rfl⟩
    obtain ⟨hne, rfl⟩ := optionalText_eq_some.mp hds
    exact plain (hplain.not.mp hne)

theorem ofLiteral_exactChars (x : Fraction) :
    NumberParts.ofLiteral x.exactChars = some x.exactParts :=
  Numeral.ofLiteral_eq_some_iff.mpr ⟨x.exactParts_fits, x.exactParts_literal⟩

/-! ### Their value -/

/-- What stands before the point has the sign of the fraction. -/
theorem num_eq (x : Fraction) : x.num = signFactor x.isNegative * x.num.natAbs := by
  rw [isNegative, signFactor]
  split
  · next h => rw [decide_eq_true_eq] at h; omega
  · next h => rw [decide_eq_true_eq] at h; omega

theorem ofParts_none (integer plain repeating : List Char) :
    ofParts integer plain repeating none = (ofDigits integer plain repeating).map reduce := by
  rw [ofParts]
  cases ofDigits integer plain repeating <;> rfl

theorem plainChars_digits (x : Fraction) : Digits x.expansion.plainChars := by
  have := x.exactParts_fits.optionalDigits.digits
  rwa [exactParts, optionalText_getD] at this

theorem cycleChars_digits (x : Fraction) : Digits x.expansion.cycleChars := by
  have := x.exactParts_fits.block_digits
  rwa [exactParts, optionalText_getD] at this

/-- A fraction is what the digits of its exact form denote. -/
theorem toRat_eq_magnitude (x : Fraction) : x.toRat = signFactor x.reduce.isNegative *
    Literal.magnitude x.wholeChars x.expansion.plainChars x.expansion.cycleChars := by
  have behind := x.expansion_expands.magnitude (Nat.mod_lt _ x.reduce.den_pos)
  have whole : ((x.reduce.num.natAbs / x.reduce.den : ℕ) : ℚ) * x.reduce.den +
      (x.reduce.num.natAbs % x.reduce.den : ℕ) = x.reduce.num.natAbs :=
    mod_cast Nat.div_add_mod' _ _
  have size : Literal.magnitude x.wholeChars x.expansion.plainChars x.expansion.cycleChars =
      x.reduce.num.natAbs / x.reduce.den := by
    rw [Literal.magnitude_eq_add, behind, wholeChars, digitsValue_decimalChars,
      eq_div_iff x.reduce.den_ne_zero, add_mul, div_mul_cancel₀ _ x.reduce.den_ne_zero, whole]
  have num : (x.reduce.num : ℚ) = _ := congrArg Int.cast x.reduce.num_eq
  rw [Int.cast_mul, Int.cast_natCast] at num
  rw [size, ← x.toRat_reduce, toRat, num, mul_div_assoc]

theorem value_exactParts (x : Fraction) : x.exactParts.value =
    (checkTenPower (x.expansion.plain.length + x.expansion.cycle.length)).map fun _ => x.reduce := by
  have hw : Unsigned x.wholeChars := unsigned_decimalChars _
  obtain ⟨y, hy, hdigits⟩ := exists_ofDigits x.reduce.isNegative hw.digits hw.ne_nil
    x.plainChars_digits x.cycleChars_digits
  rw [← x.toRat_eq_magnitude] at hy
  have plain : x.expansion.plainChars.length = x.expansion.plain.length := List.length_map _
  have cycle : x.expansion.cycleChars.length = x.expansion.cycle.length := List.length_map _
  rw [plain, cycle] at hdigits
  rw [NumberParts.value, exactParts, optionalText_getD, optionalText_getD, ofParts_none, hdigits,
    ← reduce_eq_of_toRat hy]
  cases checkTenPower (x.expansion.plain.length + x.expansion.cycle.length) <;> rfl

/-! ### The round trip -/

/-- The number of digits behind the point of the exact form, those between the braces included. -/
def fractionDigits (x : Fraction) : Nat :=
  (x.exactChars.dropWhile (· != '.')).countP isDigit

theorem countP_isDigit {ds : List Char} (h : Digits ds) : ds.countP isDigit = ds.length :=
  List.countP_eq_length.mpr h

theorem countP_blockText {ds : List Char} (h : Digits ds) :
    (blockText ds).countP isDigit = ds.length := by
  rw [blockText]
  split
  · next hd => rw [hd]; rfl
  · rw [List.countP_cons_of_neg (by decide), List.countP_append, countP_isDigit h]
    rfl

theorem countP_fractionText {cs ds : List Char} (hc : Digits cs) (hd : Digits ds) :
    ((fractionText cs ds).dropWhile (· != '.')).countP isDigit = cs.length + ds.length := by
  rw [fractionText]
  split
  · next h => rw [h.1, h.2]; rfl
  · rw [List.dropWhile_cons_of_neg (by decide), List.countP_cons_of_neg (by decide),
      List.countP_append, countP_isDigit hc, countP_blockText hd]

theorem fractionDigits_eq (x : Fraction) :
    x.fractionDigits = x.expansion.plain.length + x.expansion.cycle.length := by
  have fits := x.exactParts_fits
  have hplain := fits.optionalDigits.digits
  have hcycle := fits.block_digits
  have before (c : Char) (hc : c ∈ x.exactParts.integer) : (c != '.') = true := by
    have := fits.integer_isSigned c hc
    rw [bne_iff_ne]
    rintro rfl
    exact absurd this (by decide)
  rw [fractionDigits, ← exactParts_literal, literal_eq, List.dropWhile_append_of_pos before]
  simp only [exactParts, optionalText_getD] at hplain hcycle ⊢
  rw [show exponentText none = [] from rfl, List.append_nil, countP_fractionText hplain hcycle,
    Expansion.plainChars, Expansion.cycleChars, List.length_map, List.length_map]

/-- The exact form is read as the lowest terms of the same number, or not at all where it has more
digits behind the point than a literal may have. -/
theorem ofLiteral_exact (x : Fraction) :
    Fraction.ofLiteral x.exact.toList =
        (if x.fractionDigits ≤ maxLiteralExponent then .ok x.reduce
        else .error (.arithmetic (.domain ("exponent " ++ x.fractionDigits.repr ++ " exceeds " ++
          maxLiteralExponent.repr)))) ∧
      x.reduce.same x := by
  refine ⟨?_, x.same_reduce⟩
  rw [exact, String.toList_ofList, Fraction.ofLiteral, ofLiteral_exactChars, fractionDigits_eq]
  simp only [value_exactParts, checkTenPower_eq]
  by_cases h : x.expansion.plain.length + x.expansion.cycle.length ≤ maxLiteralExponent
  · rw [if_pos h, if_pos h]
    rfl
  · rw [if_neg h, if_neg h]
    rfl

end Fraction

end Reckon
