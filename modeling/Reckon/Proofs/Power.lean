import Mathlib
import Reckon.Proofs.Operands

/-!
# Powers and their limits

The outcome of `x ^ y` is told by the two numbers alone (`Evaluation.powerNumber`): the exponent has
to be whole, then within its limit, then the size of the result is estimated, and only then a power
of zero can fail. A power that is admitted is never too large for `Fraction.pow` itself, since an
exponent is at most a 32 bit word (`Evaluation.natAbs_le_maxPower`).

Sizes are numbers of bits. Those of a power are at most the exponent times those of what is
multiplied with itself (`Fraction.bits_npow_le`). The estimate is made for the lowest terms of the
base, and so are powers that are not negative; a negative one is a power of the reciprocal as it
stands. So the estimate bounds the pair that `Fraction.pow` gives if the exponent is not negative or
the base is in lowest terms (`Fraction.bits_pow_le`). It always bounds the lowest terms of this pair,
which is what the evaluation goes on with (`Fraction.bits_reduce_pow_le`).
-/

namespace Reckon

/-! ### Numbers of bits -/

theorem bitLength_le_iff {n k : Nat} : bitLength n ≤ k ↔ n < 2 ^ k := by
  rw [bitLength]
  split
  · next h => simp [h]
  · next h => rw [Nat.add_one_le_iff, Nat.log2_lt h]

theorem bitLength_mono {m n : Nat} (h : m ≤ n) : bitLength m ≤ bitLength n :=
  bitLength_le_iff.mpr (h.trans_lt (bitLength_le_iff.mp le_rfl))

theorem bitLength_pow_le (n k : Nat) : bitLength (n ^ k) ≤ max 1 (bitLength n * k) := by
  rcases Nat.eq_zero_or_pos k with rfl | hk
  · rw [pow_zero]
    exact le_max_left 1 _
  · refine le_max_of_le_right (bitLength_le_iff.mpr ?_)
    rw [pow_mul]
    exact Nat.pow_lt_pow_left (bitLength_le_iff.mp le_rfl) hk.ne'

namespace Fraction

variable {x r z : Fraction}

/-- The bits of the larger one of numerator and denominator. -/
def bits (x : Fraction) : Nat := max (bitLength x.num.natAbs) (bitLength x.den)

theorem bits_reduce_le (x : Fraction) : x.reduce.bits ≤ x.bits := by
  refine max_le_max (bitLength_mono ?_) (bitLength_mono ?_)
  · have h := congrArg Int.natAbs x.gcd_mul_num
    rw [Int.natAbs_mul, Int.natAbs_natCast] at h
    exact h ▸ Nat.le_mul_of_pos_left _ x.gcd_pos
  · exact x.gcd_mul_den ▸ Nat.le_mul_of_pos_left _ x.gcd_pos

theorem bits_npow_le (x : Fraction) (n : Nat) : (x.npow n).bits ≤ max 1 (x.bits * n) := by
  have num : (x.npow n).num.natAbs = x.num.natAbs ^ n := Int.natAbs_pow x.num n
  have below {b : Nat} (h : b ≤ x.bits) : max 1 (b * n) ≤ max 1 (x.bits * n) :=
    max_le_max le_rfl (Nat.mul_le_mul_right n h)
  rw [bits, num]
  exact max_le ((bitLength_pow_le _ n).trans (below (le_max_left _ _)))
    ((bitLength_pow_le _ n).trans (below (le_max_right _ _)))

/-- A reciprocal is the same pair the other way round. -/
theorem bits_reciprocal (h : x.reciprocal = .ok r) : r.bits = x.bits := by
  rw [reciprocal] at h
  split at h
  · cases h
  · obtain rfl := Except.ok.inj h
    have num : (if x.num < 0 then -(x.den : Int) else x.den).natAbs = x.den := by split <;> simp
    rw [bits, num, bits, max_comm]

/-- The base that is multiplied with itself: the reciprocal as it stands, or the lowest terms. -/
theorem pow_eq_ok {e : Int} (h : x.pow e = .ok z) : ∃ base : Fraction, z = base.npow e.natAbs ∧
    if e < 0 then x.reciprocal = .ok base else base = x.reduce := by
  rw [pow] at h
  split at h
  · cases h
  · split at h
    · next he =>
      rcases hr : x.reciprocal with fault | r
      · rw [hr] at h
        cases h
      · rw [hr] at h
        exact ⟨r, (Except.ok.inj h).symm, by rw [if_pos he]⟩
    · next he => exact ⟨x.reduce, (Except.ok.inj h).symm, by rw [if_neg he]⟩

theorem bits_pow_le {e : Int} (h : x.pow e = .ok z) (hx : 0 ≤ e ∨ x.reduce = x) :
    z.bits ≤ max 1 (x.reduce.bits * e.natAbs) := by
  obtain ⟨base, rfl, hbase⟩ := pow_eq_ok h
  have size : base.bits = x.reduce.bits := by
    split at hbase
    · next he =>
      have lowest : x.reduce = x := hx.resolve_left (not_le.mpr he)
      rw [bits_reciprocal hbase, lowest]
    · rw [hbase]
  exact size ▸ base.bits_npow_le e.natAbs

/-- In lowest terms a power is no larger than one of lowest terms. -/
theorem bits_reduce_pow_le {e : Int} (h : x.pow e = .ok z) :
    z.reduce.bits ≤ max 1 (x.reduce.bits * e.natAbs) := by
  have lowest : (x.reduce.pow e).map reduce = .ok z.reduce := by
    rw [map_reduce_pow, toRat_reduce, ← map_reduce_pow, h]
    rfl
  obtain ⟨y, hy, hyz⟩ := map_eq_ok lowest
  have hle := bits_pow_le hy (.inr x.reduce_reduce)
  rw [reduce_reduce] at hle
  exact hyz ▸ y.bits_reduce_le.trans hle

/-! ### Whole numbers -/

theorem isWhole_iff (x : Fraction) : x.isWhole ↔ x.toRat.isInt := by
  rw [← x.isWhole_reduce, reduce_eq_ofRat, isWhole, beq_iff_eq, ← Int.dvd_iff_emod_eq_zero, Rat.isInt,
    beq_iff_eq]
  show (x.toRat.den : Int) ∣ x.toRat.num ↔ x.toRat.den = 1
  constructor
  · exact fun h => x.toRat.reduced.symm.eq_one_of_dvd (Int.natCast_dvd.mp h)
  · exact fun h => h ▸ one_dvd _

theorem trunc_of_isInt (h : x.toRat.isInt) : x.trunc = x.toRat.num := by
  have one : x.toRat.den = 1 := beq_iff_eq.mp h
  rw [← x.trunc_reduce, reduce_eq_ofRat]
  show x.toRat.num.tdiv x.toRat.den = x.toRat.num
  rw [one]
  exact Int.tdiv_one _

end Fraction

/-! ### The outcome of a power -/

namespace Evaluation

variable {settings : Settings} {x y z : Fraction} {e : Int}

theorem exponent_eq (settings : Settings) (y : Fraction) : exponent settings y =
    if ¬ y.toRat.isInt then .error (.fractionalExponent y.exact)
    else if settings.maxExponent.toNat < y.toRat.num.natAbs then
      .error (.exponentTooLarge y.exact settings.maxExponent.toNat)
    else .ok y.toRat.num := by
  by_cases h : y.toRat.isInt
  · rw [exponent, if_pos (y.isWhole_iff.mpr h), if_neg (not_not.mpr h), Fraction.trunc_of_isInt h,
      ← ite_not]
    simp only [not_le]
  · rw [exponent, if_neg (mt y.isWhole_iff.mp h), if_pos h]

/-- An exponent within its limit is a 32 bit word. -/
theorem natAbs_le_maxPower (h : exponent settings y = .ok e) : e.natAbs ≤ Fraction.maxPower := by
  rw [exponent_eq] at h
  split_ifs at h with hint hlimit
  obtain rfl := Except.ok.inj h
  exact (not_lt.mp hlimit).trans (Nat.le_of_lt_succ settings.maxExponent.toNat_lt)

/-- A power with a value was admitted by both checks. -/
theorem power_eq_ok (h : power settings x y = .ok z) : ∃ e, exponent settings y = .ok e ∧
    min (x.reduce.bits * e.natAbs) maxSize ≤ settings.maxResultBits.toNat ∧ x.pow e = .ok z := by
  rw [power] at h
  rcases he : exponent settings y with fault | e
  · rw [he] at h
    cases h
  · rw [he] at h
    simp only at h
    split at h
    · cases h
    · next hsize => exact ⟨e, rfl, not_lt.mp hsize, mapError_eq_ok_iff.mp h⟩

/-- The value of an admitted power, not reduced yet, is within the limit of the size if the exponent
is not negative or the base is in lowest terms. Reduced, it always is. The estimate of the size ends
at the largest 64 bit word, so that limit admits any size. -/
theorem bits_power_le (hmax : settings.maxResultBits.toNat < 2 ^ 64 - 1)
    (h : power settings x y = .ok z) : ∃ e, exponent settings y = .ok e ∧ x.pow e = .ok z ∧
      (0 ≤ e ∨ x.reduce = x → z.bits ≤ max 1 settings.maxResultBits.toNat) ∧
      z.reduce.bits ≤ max 1 settings.maxResultBits.toNat := by
  obtain ⟨e, he, hsize, hz⟩ := power_eq_ok h
  have size : x.reduce.bits * e.natAbs ≤ settings.maxResultBits.toNat :=
    (min_le_iff.mp hsize).resolve_right (not_le.mpr hmax)
  have limit : max 1 (x.reduce.bits * e.natAbs) ≤ max 1 settings.maxResultBits.toNat :=
    max_le_max le_rfl size
  exact ⟨e, he, hz, fun hx => (Fraction.bits_pow_le hz hx).trans limit,
    (Fraction.bits_reduce_pow_le hz).trans limit⟩

theorem bits_power_le_cube :
    ∃ z e, power { maxResultBits := 6 } ⟨6, 4, by decide⟩ (.ofInt 3) = .ok z ∧
      exponent { maxResultBits := 6 } (.ofInt 3) = .ok e ∧ Fraction.pow ⟨6, 4, by decide⟩ e = .ok z ∧
      0 ≤ e ∧ z.bits ≤ 6 ∧ z.reduce.bits ≤ 6 := by
  have h : power { maxResultBits := 6 } ⟨6, 4, by decide⟩ (.ofInt 3) = .ok ⟨27, 8, by decide⟩ := by
    decide
  obtain ⟨e, he, hz, hbits, hreduced⟩ := bits_power_le (by decide) h
  have three : e = 3 := (Except.ok.inj he).symm
  have positive : 0 ≤ e := by rw [three]; decide
  exact ⟨_, e, h, he, hz, positive, hbits (.inl positive), hreduced⟩

/-- Four halves to the power `-1` pass both checks with more bits than are allowed: the size is
estimated for the number two, the reciprocal is two quarters. -/
theorem bits_power_of_four_halves :
    exponent { maxResultBits := 2 } (.ofInt (-1)) = .ok (-1) ∧ powerSize ⟨4, 2, by decide⟩ (-1) ≤ 2 ∧
      Fraction.pow ⟨4, 2, by decide⟩ (-1) = .ok ⟨2, 4, by decide⟩ ∧
      power { maxResultBits := 2 } ⟨4, 2, by decide⟩ (.ofInt (-1)) = .ok ⟨2, 4, by decide⟩ ∧
      ¬ Fraction.bits ⟨2, 4, by decide⟩ ≤ max 1 2 := by
  decide

/-- What `x ^ y` gives, told by the numbers. -/
def powerNumber (settings : Settings) (x y : ℚ) : Except EvalFault ℚ :=
  if ¬ y.isInt then .error (.fractionalExponent (Fraction.ofRat y).exact)
  else if settings.maxExponent.toNat < y.num.natAbs then
    .error (.exponentTooLarge (Fraction.ofRat y).exact settings.maxExponent.toNat)
  else if settings.maxResultBits.toNat <
      min (max (bitLength x.num.natAbs) (bitLength x.den) * y.num.natAbs) (2 ^ 64 - 1) then
    .error (.resultTooLarge settings.maxResultBits.toNat)
  else if x = 0 ∧ y < 0 then .error (.arithmetic .divideByZero)
  else .ok (x ^ y.num)

theorem combine_power (settings : Settings) (x y : Fraction) :
    Precedence.combine settings .power x y =
      (powerNumber settings x.toRat y.toRat).map Fraction.ofRat := by
  have size (e : Int) : powerSize x e =
      min (max (bitLength x.toRat.num.natAbs) (bitLength x.toRat.den) * e.natAbs) (2 ^ 64 - 1) := by
    rw [powerSize, x.reduce_eq_ofRat]
    rfl
  have exact : (Fraction.ofRat y.toRat).exact = y.exact :=
    Fraction.exact_congr (Fraction.toRat_ofRat y.toRat)
  rw [Precedence.combine, value, power, powerNumber, exact]
  by_cases hint : ¬ y.toRat.isInt
  · rw [exponent_eq, if_pos hint, if_pos hint]
    rfl
  by_cases hlimit : settings.maxExponent.toNat < y.toRat.num.natAbs
  · rw [exponent_eq, if_neg hint, if_pos hlimit, if_neg hint, if_pos hlimit]
    rfl
  have he : exponent settings y = .ok y.toRat.num := by
    rw [exponent_eq, if_neg hint, if_neg hlimit]
  have within : ¬ Fraction.maxPower < y.toRat.num.natAbs := not_lt.mpr (natAbs_le_maxPower he)
  have zero : (y.toRat.num < 0 ∧ x.toRat = 0) = (x.toRat = 0 ∧ y.toRat < 0) := by
    rw [Rat.num_neg, and_comm]
  simp only [he, if_neg hint, if_neg hlimit, ← size]
  split
  · rfl
  · simp only [map_mapError, Fraction.map_reduce_pow, if_neg within, zero]
    split <;> rfl

end Evaluation

/-- An operator between two operands. -/
theorem Formula.evaluate_infix {settings : Settings} {context : Context} {a b : Element}
    (ha : a.isOperand) (hb : b.isOperand) (o : Operator) :
    Formula.evaluate settings context [a, .operator o, b] = (do
      let x ← Evaluation.operandValue settings context a
      let y ← Evaluation.operandValue settings context b
      Precedence.combine settings o x y) := by
  have waits : Evaluation.Waits o [] := by rintro p ⟨⟩
  have ends : Evaluation.Ends o [] := trivial
  rw [Evaluation.evaluate_eq, Evaluation.outcome_operand ha]
  rcases Evaluation.operandValue settings context a with fault | x
  · rfl
  show Evaluation.outcome settings context [.operator o, b] ⟨[x], [], false⟩ = _
  rw [Evaluation.outcome_operator waits, Evaluation.outcome_operand hb]
  rcases Evaluation.operandValue settings context b with fault | y
  · rfl
  show Evaluation.outcome settings context [] ⟨[y, x], [o], false⟩ = Precedence.combine settings o x y
  rw [Evaluation.outcome_apply ends]
  rcases hz : Precedence.combine settings o x y with fault | z
  · rfl
  · -- what an operator gives is in lowest terms already
    obtain ⟨w, -, rfl⟩ := map_eq_ok hz
    exact (Evaluation.outcome_nil _).trans (congrArg Except.ok w.reduce_reduce)

/-- A power has the outcome of the two numbers, in lowest terms: the first of the causes in
`powerNumber` that applies, or the power. That it cannot be computed is none of them. -/
theorem Formula.evaluate_power (settings : Settings) (context : Context) (x y : Fraction) :
    Formula.evaluate settings context [.number x, .operator .power, .number y] =
        (Evaluation.powerNumber settings x.toRat y.toRat).map Fraction.ofRat ∧
      ∀ reason, Formula.evaluate settings context [.number x, .operator .power, .number y] ≠
        .error (.arithmetic (.domain reason)) := by
  have value : Formula.evaluate settings context [.number x, .operator .power, .number y] =
      (Evaluation.powerNumber settings x.toRat y.toRat).map Fraction.ofRat :=
    (Formula.evaluate_infix rfl rfl .power).trans (Evaluation.combine_power settings x y)
  refine ⟨value, fun reason h => ?_⟩
  rw [value] at h
  have none := map_eq_error h
  rw [Evaluation.powerNumber] at none
  split_ifs at none <;> cases none

/-- The size is estimated before a power of zero can fail. -/
example : Evaluation.powerNumber { maxResultBits := 0 } 0 (-1) = .error (.resultTooLarge 0) := by
  rfl

end Reckon
