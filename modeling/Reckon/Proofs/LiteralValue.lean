import Mathlib
import Reckon.Fraction.Literal
import Reckon.Proofs.Digits
import Reckon.Proofs.Rational

/-!
# What a literal denotes

The parts of a literal are a signed run of digits, two more runs and an exponent. `Literal.magnitude`
is the number of the runs, each at its place behind the point, and `Literal.Exponent` gives the
number of an exponent. Gluing the runs together and subtracting gives the magnitude with its sign
(`exists_ofDigits`): the digits before the block cancel, and what is left of the block is worth
`10 ^ n * (10 ^ k - 1)` times as much as it is in the magnitude. Moving the point by the exponent
multiplies (`exists_scale`). So the parts have the number that they spell for a value, or none where
a power of ten is too large (`exists_ofParts`).
-/

namespace Reckon

open Notation

namespace Literal

/-- The number of some digits, a point, more digits, and a block that repeats for ever. -/
def magnitude (whole plain cycle : List Char) : ℚ :=
  (Nat.ofDigitChars 10 whole 0 : ℚ) + (Nat.ofDigitChars 10 plain 0 : ℚ) / 10 ^ plain.length +
    if cycle = [] then 0
    else (Nat.ofDigitChars 10 cycle 0 : ℚ) / (10 ^ plain.length * (10 ^ cycle.length - 1))

theorem magnitude_eq_add (whole plain cycle : List Char) :
    magnitude whole plain cycle = digitsValue whole + magnitude [] plain cycle := by
  rw [magnitude, magnitude, digitsValue_eq, Nat.ofDigitChars_nil, Nat.cast_zero, zero_add, add_assoc]

/-- `Exponent w e`: `w` is `e` in digits, which may have leading zeros and a sign of either kind. -/
inductive Exponent : List Char → ℤ → Prop
  | unsigned {ds : List Char} (h : Digits ds) (hne : ds ≠ []) :
      Exponent ds (Nat.ofDigitChars 10 ds 0)
  | plus {ds : List Char} (h : Digits ds) (hne : ds ≠ []) :
      Exponent ('+' :: ds) (Nat.ofDigitChars 10 ds 0)
  | minus {ds : List Char} (h : Digits ds) (hne : ds ≠ []) :
      Exponent ('-' :: ds) (-Nat.ofDigitChars 10 ds 0)

/-- An exponent that may be missing. -/
inductive OptionalExponent : Option (List Char) → ℤ → Prop
  | none : OptionalExponent none 0
  | some {w : List Char} {e : ℤ} (h : Exponent w e) : OptionalExponent (some w) e

end Literal

/-! ### Exponents -/

section
variable {w ds : List Char} {e : ℤ}

theorem readDigits_digits (h : Digits ds) (hne : ds ≠ []) : readDigits ds = some (digitsValue ds) := by
  obtain ⟨c, cs, rfl⟩ := List.exists_cons_of_ne_nil hne
  rw [readDigits, if_pos (List.all_eq_true.mpr h)]

/-- An exponent is read if it is within the range of a word. -/
theorem readExponent_eq (h : Literal.Exponent w e) :
    readExponent w = if -(wordRange : ℤ) ≤ e ∧ e < wordRange then some e else none := by
  cases h with
  | unsigned h hne =>
    obtain ⟨c, cs, rfl⟩ := List.exists_cons_of_ne_nil hne
    have hc := h c (List.mem_cons_self ..)
    have hm : c ≠ '-' := fun he => absurd hc (by rw [he]; decide)
    have hp : c ≠ '+' := fun he => absurd hc (by rw [he]; decide)
    rw [readExponent, if_neg hm, if_neg hp, readDigits_digits h hne, ← digitsValue_eq]
    generalize digitsValue (c :: cs) = n
    simp only [Option.bind_some]
    split_ifs <;> first | rfl | omega
  | @plus ds h hne =>
    rw [readExponent, if_neg (by decide), if_pos rfl, readDigits_digits h hne, ← digitsValue_eq]
    generalize digitsValue ds = n
    simp only [Option.bind_some]
    split_ifs <;> first | rfl | omega
  | @minus ds h hne =>
    rw [readExponent, if_pos rfl, readDigits_digits h hne, ← digitsValue_eq]
    generalize digitsValue ds = n
    simp only [Option.bind_some]
    split_ifs <;> first | rfl | (simp only [wordRange] at *; omega)

end

/-! ### Runs of digits -/

namespace Fraction

theorem checkTenPower_eq (n : Nat) : checkTenPower n =
    if n ≤ maxLiteralExponent then .ok ()
    else .error (.domain ("exponent " ++ n.repr ++ " exceeds " ++ maxLiteralExponent.repr)) := by
  rw [checkTenPower]
  split <;> split <;> first | rfl | omega

variable {negative : Bool} {whole plain cycle : List Char}

theorem ofDigits_finite (hw : Digits whole) (hne : whole ≠ []) (hp : Digits plain) :
    ofDigits (signChars negative ++ whole) plain [] = (checkTenPower plain.length).map fun _ =>
      ⟨signFactor negative * digitsValue (whole ++ plain), tenPow plain.length, tenPow_pos _⟩ := by
  have digits : Digits (whole ++ plain) := fun c hc => (List.mem_append.mp hc).elim (hw c) (hp c)
  rw [ofDigits, List.append_assoc, spelledInteger_signed negative digits (by simp [hne])]
  simp only [bind, Except.bind, dif_pos]
  cases checkTenPower plain.length <;> rfl

theorem ofDigits_periodic (hw : Digits whole) (hne : whole ≠ []) (hp : Digits plain)
    (hc : Digits cycle) (hcycle : cycle ≠ []) :
    ofDigits (signChars negative ++ whole) plain cycle =
      (checkTenPower (plain.length + cycle.length)).map fun _ =>
        ⟨signFactor negative * digitsValue (whole ++ plain ++ cycle) -
            signFactor negative * digitsValue (whole ++ plain),
          tenPow (plain.length + cycle.length) - tenPow plain.length,
          Nat.sub_pos_of_lt
            (tenPow_lt (Nat.lt_add_of_pos_right (List.length_pos_iff.mpr hcycle)))⟩ := by
  have digits : Digits (whole ++ plain) := fun c hc => (List.mem_append.mp hc).elim (hw c) (hp c)
  have digits' : Digits (whole ++ plain ++ cycle) := fun c h =>
    (List.mem_append.mp h).elim (digits c) (hc c)
  rw [ofDigits, List.append_assoc (signChars negative), List.append_assoc (signChars negative),
    spelledInteger_signed negative digits (by simp [hne]),
    spelledInteger_signed negative digits' (by simp [hne])]
  simp only [bind, Except.bind, dif_neg hcycle]
  by_cases h : plain.length + cycle.length ≤ maxLiteralExponent
  · rw [checkTenPower_eq, if_pos h, checkTenPower_eq, if_pos (by omega)]
    rfl
  · rw [checkTenPower_eq, if_neg h]
    rfl

theorem magnitude_finite (whole plain : List Char) :
    Literal.magnitude whole plain [] = digitsValue (whole ++ plain) / 10 ^ plain.length := by
  rw [Literal.magnitude, if_pos rfl, digitsValue_append, digitsValue_eq, digitsValue_eq]
  push_cast
  field_simp
  ring

theorem magnitude_periodic (hcycle : cycle ≠ []) :
    Literal.magnitude whole plain cycle =
      (digitsValue (whole ++ plain ++ cycle) - digitsValue (whole ++ plain)) /
        (10 ^ (plain.length + cycle.length) - 10 ^ plain.length) := by
  have hten : (1 : ℚ) < 10 ^ cycle.length :=
    one_lt_pow₀ (by norm_num) (List.length_pos_iff.mpr hcycle).ne'
  have hlt : (10 : ℚ) ^ cycle.length - 1 ≠ 0 := (sub_pos.mpr hten).ne'
  have hden : (10 : ℚ) ^ (plain.length + cycle.length) - 10 ^ plain.length =
      10 ^ plain.length * (10 ^ cycle.length - 1) := by ring
  rw [Literal.magnitude, if_neg hcycle, hden, digitsValue_append (whole ++ plain) cycle,
    digitsValue_append whole plain, digitsValue_eq, digitsValue_eq, digitsValue_eq]
  push_cast
  field_simp
  ring

/-- What the digits denote, if there are not too many of them. -/
theorem exists_ofDigits (negative : Bool) (hw : Digits whole) (hne : whole ≠ []) (hp : Digits plain)
    (hc : Digits cycle) : ∃ y : Fraction,
      y.toRat = signFactor negative * Literal.magnitude whole plain cycle ∧
      ofDigits (signChars negative ++ whole) plain cycle =
        (checkTenPower (plain.length + cycle.length)).map fun _ => y := by
  by_cases hcycle : cycle = []
  · subst hcycle
    refine ⟨_, ?_, ofDigits_finite hw hne hp⟩
    show ((signFactor negative * digitsValue (whole ++ plain) : ℤ) : ℚ) / (tenPow plain.length : ℕ) = _
    rw [magnitude_finite, tenPow_eq]
    push_cast
    rw [mul_div_assoc]
  · refine ⟨_, ?_, ofDigits_periodic hw hne hp hc hcycle⟩
    have hle : 10 ^ plain.length ≤ 10 ^ (plain.length + cycle.length) :=
      Nat.pow_le_pow_right (by decide) (Nat.le_add_right _ _)
    show ((signFactor negative * digitsValue (whole ++ plain ++ cycle) -
      signFactor negative * digitsValue (whole ++ plain) : ℤ) : ℚ) /
        (tenPow (plain.length + cycle.length) - tenPow plain.length : ℕ) = _
    rw [magnitude_periodic hcycle, tenPow_eq, tenPow_eq, Nat.cast_sub hle]
    push_cast
    rw [← mul_sub, mul_div_assoc]

/-- Moving the point is multiplication by a power of ten. -/
theorem exists_scale (y : Fraction) (e : ℤ) : ∃ z : Fraction, z.toRat = y.toRat * 10 ^ e ∧
    y.scale e = (checkTenPower e.natAbs).map fun _ => z := by
  rw [scale]
  rcases le_or_gt 0 e with he | he
  · refine ⟨⟨y.num * tenPow e.natAbs, y.den, y.den_pos⟩, ?_, ?_⟩
    · obtain ⟨n, rfl⟩ := Int.eq_ofNat_of_zero_le he
      show ((y.num * tenPow (n : ℤ).natAbs : ℤ) : ℚ) / y.den = _
      rw [toRat, tenPow_eq, Int.natAbs_natCast, zpow_natCast]
      push_cast
      rw [mul_div_right_comm]
    · rw [if_pos he]
      cases checkTenPower e.natAbs <;> rfl
  · refine ⟨⟨y.num, y.den * tenPow e.natAbs, Nat.mul_pos y.den_pos (tenPow_pos _)⟩, ?_, ?_⟩
    · have hpow : (10 : ℚ) ^ e = (10 ^ e.natAbs)⁻¹ := by
        rw [← zpow_natCast, ← zpow_neg, Int.ofNat_natAbs_of_nonpos he.le, neg_neg]
      show (y.num : ℚ) / (y.den * tenPow e.natAbs : ℕ) = _
      rw [toRat, tenPow_eq, hpow]
      push_cast
      rw [div_mul_eq_div_div, ← div_eq_mul_inv]
    · rw [if_neg (not_le.mpr he)]
      cases checkTenPower e.natAbs <;> rfl

/-! ### All parts -/

section
variable {exponent : Option (List Char)} {w : List Char} {e : ℤ}

/-- What an exponent does, if it is small enough. Whether it fits a word does not matter then. -/
theorem exists_moved (y : Fraction) (he : Literal.Exponent w e) : ∃ reason,
    (do return (← y.scale (← spelledExponent w)).reduce) =
      if e.natAbs ≤ maxLiteralExponent then .ok (ofRat (y.toRat * 10 ^ e))
      else .error (.domain reason) := by
  obtain ⟨z, hz, hscale⟩ := exists_scale y e
  have hread := readExponent_eq he
  by_cases range : -(wordRange : ℤ) ≤ e ∧ e < wordRange
  · have spelled : spelledExponent w = .ok e := by rw [spelledExponent, hread, if_pos range]
    rw [spelled, ← hz, ← reduce_eq_ofRat]
    simp only [bind, Except.bind, hscale, checkTenPower_eq]
    by_cases small : e.natAbs ≤ maxLiteralExponent
    · simp only [if_pos small]
      exact ⟨"", rfl⟩
    · simp only [if_neg small]
      exact ⟨_, rfl⟩
  · have large : ¬ e.natAbs ≤ maxLiteralExponent := by
      simp only [wordRange, maxLiteralExponent] at range ⊢
      omega
    simp only [spelledExponent, hread, if_neg range, if_neg large]
    exact ⟨_, rfl⟩

/-- The parts have a value if the powers of ten that they take are not too large. -/
theorem exists_ofParts (negative : Bool) (hw : Digits whole) (hne : whole ≠ []) (hp : Digits plain)
    (hc : Digits cycle) (he : Literal.OptionalExponent exponent e) : ∃ reason,
      ofParts (signChars negative ++ whole) plain cycle exponent =
        if plain.length + cycle.length ≤ maxLiteralExponent ∧ e.natAbs ≤ maxLiteralExponent then
          .ok (ofRat (signFactor negative * Literal.magnitude whole plain cycle * 10 ^ e))
        else .error (.domain reason) := by
  obtain ⟨y, hy, hdigits⟩ := exists_ofDigits negative hw hne hp hc
  rw [ofParts, hdigits, checkTenPower_eq, ← hy]
  by_cases hn : plain.length + cycle.length ≤ maxLiteralExponent
  · simp only [hn, true_and]
    cases he with
    | none =>
      refine ⟨"", ?_⟩
      rw [if_pos (by decide), zpow_zero, mul_one, ← reduce_eq_ofRat]
      rfl
    | some he => exact exists_moved y he
  · simp only [hn, false_and, if_false]
    exact ⟨_, rfl⟩

/-- Parts of a literal have a value if they have few enough digits behind the point and an exponent
that fits a word and is small enough. The value is the number that the parts spell, in lowest terms;
a minus sign before the digits counts, also before zero. -/
theorem ofParts_denotes (negative : Bool) (hw : Digits whole) (hne : whole ≠ []) (hp : Digits plain)
    (hc : Digits cycle) (he : Literal.OptionalExponent exponent e) :
    ((∃ x, ofParts (signChars negative ++ whole) plain cycle exponent = .ok x) ↔
      plain.length + cycle.length ≤ maxLiteralExponent ∧ (-2 ^ 63 ≤ e ∧ e < 2 ^ 63) ∧
        |e| ≤ maxLiteralExponent) ∧
    ∀ x, ofParts (signChars negative ++ whole) plain cycle exponent = .ok x →
      x.toRat = (if negative then -1 else 1) * Literal.magnitude whole plain cycle * 10 ^ e ∧
        x.num.natAbs.Coprime x.den ∧ 0 < x.den := by
  obtain ⟨reason, h⟩ := exists_ofParts negative hw hne hp hc he
  have small : plain.length + cycle.length ≤ maxLiteralExponent ∧
      e.natAbs ≤ maxLiteralExponent ↔ plain.length + cycle.length ≤ maxLiteralExponent ∧
        (-2 ^ 63 ≤ e ∧ e < 2 ^ 63) ∧ |e| ≤ maxLiteralExponent := by
    rw [Int.abs_eq_natAbs]
    simp only [maxLiteralExponent]
    omega
  have sign : ((signFactor negative : ℤ) : ℚ) = if negative then -1 else 1 := by
    cases negative <;> simp [signFactor]
  rw [h, ← small, ← sign]
  split
  · next hs =>
    refine ⟨iff_of_true ⟨_, rfl⟩ hs, ?_⟩
    rintro _ ⟨⟩
    exact ⟨toRat_ofRat _, Rat.reduced _, Rat.den_pos _⟩
  · next hs => exact ⟨iff_of_false (by rintro ⟨x, ⟨⟩⟩) hs, by rintro x ⟨⟩⟩

/-- `-0.25{03}RE+02`: the sign of a zero counts. -/
theorem ofParts_denotes_negative_zero :
    (Digits ['0'] ∧ Digits ['2', '5'] ∧ Digits ['0', '3'] ∧
      Literal.OptionalExponent (some ['+', '0', '2']) 2) ∧
    ∃ x, ofParts ['-', '0'] ['2', '5'] ['0', '3'] (some ['+', '0', '2']) = .ok x ∧
      x.toRat = -(25 / 100 + 3 / 9900) * 10 ^ 2 := by
  have hw : Digits ['0'] := by simp [Digits, isDigit]
  have hp : Digits ['2', '5'] := by simp [Digits, isDigit]
  have hc : Digits ['0', '3'] := by simp [Digits, isDigit]
  have hx : Digits ['0', '2'] := by simp [Digits, isDigit]
  have he : Literal.OptionalExponent (some ['+', '0', '2']) 2 := .some (.plus hx (by simp))
  obtain ⟨hok, hvalue⟩ := ofParts_denotes true hw (by simp) hp hc he
  obtain ⟨x, hx⟩ := hok.mpr (by decide)
  refine ⟨⟨hw, hp, hc, he⟩, x, hx, (hvalue x hx).1.trans ?_⟩
  have h25 : Nat.ofDigitChars 10 ['2', '5'] 0 = 25 := by decide
  have h03 : Nat.ofDigitChars 10 ['0', '3'] 0 = 3 := by decide
  have h0 : Nat.ofDigitChars 10 ['0'] 0 = 0 := by decide
  have cycle : ['0', '3'] ≠ [] := List.cons_ne_nil _ _
  rw [if_pos rfl, Literal.magnitude, if_neg cycle, h25, h03, h0]
  norm_num

end

end Fraction

end Reckon
