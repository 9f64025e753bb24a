import Mathlib
import Reckon.Fraction.Literal
import Reckon.Proofs.Rational

/-!
# Computing with fractions

A `Computation` is any sequence of operations on fractions. Its `value` is what the operations give,
and its `number` the same computation with numbers, where every fault is a condition on the numbers.
Both agree (`Computation.map_toRat_value`), one operation after the other: the pairs in between need
not be in lowest terms, and nothing depends on which pairs they are.
-/

namespace Reckon

namespace Fraction

/-! ### Single operations -/

theorem map_toRat_ofInts (n d : Int) : (ofInts n d).map toRat =
    if d = 0 then .error .zeroDenominator else .ok (n / d) := by
  rw [ofInts]
  split
  · rfl
  · next hd =>
    have habs : (d.natAbs : ℚ) = |(d : ℚ)| := by
      rw [← Int.cast_abs, Int.abs_eq_natAbs, Int.cast_natCast]
    refine congrArg Except.ok ?_
    rw [toRat, habs]
    rcases lt_or_gt_of_ne hd with hlt | hgt
    · rw [if_pos hlt, abs_of_neg (Int.cast_lt_zero.mpr hlt), Int.cast_neg, neg_div_neg_eq]
    · rw [if_neg hgt.not_gt, abs_of_pos (Int.cast_pos.mpr hgt)]

theorem ofInts_num_den (x : Fraction) : ofInts x.num x.den = .ok x := by
  have hnot : ¬ (x.den : Int) < 0 := not_lt.mpr (Int.natCast_nonneg _)
  simp [ofInts, x.den_pos.ne', hnot]

theorem toRat_ofInt (n : Int) : (ofInt n).toRat = n := by
  show (n : ℚ) / (1 : Nat) = n
  rw [Nat.cast_one, div_one]

theorem toRat_abs (x : Fraction) : x.abs.toRat = |x.toRat| := by
  show ((x.num.natAbs : Int) : ℚ) / x.den = _
  rw [toRat, abs_div, Nat.abs_cast, ← Int.abs_eq_natAbs, Int.cast_abs]

theorem floor_toRat (x : Fraction) : ⌊x.toRat⌋ = x.num / x.den := Rat.floor_intCast_div_natCast _ _

theorem floor_eq (x : Fraction) : x.floor = ofInt ⌊x.toRat⌋ := by
  rw [floor, floor_toRat, Int.fdiv_eq_ediv_of_nonneg _ (Int.natCast_nonneg _)]

theorem ceil_eq (x : Fraction) : x.ceil = ofInt ⌈x.toRat⌉ := by
  have hneg : (-x.num).fdiv x.den = ⌊(-x).toRat⌋ := by
    rw [floor_toRat, Int.fdiv_eq_ediv_of_nonneg _ (Int.natCast_nonneg _)]
    rfl
  rw [ceil, hneg, toRat_neg, Int.floor_neg, neg_neg]

theorem toRat_nonneg_iff {x : Fraction} : 0 ≤ x.toRat ↔ 0 ≤ x.num := by
  rw [toRat, le_div_iff₀ (Nat.cast_pos.mpr x.den_pos), zero_mul, Int.cast_nonneg_iff]

theorem trunc_of_nonneg {x : Fraction} (h : 0 ≤ x.toRat) : x.trunc = ⌊x.toRat⌋ := by
  rw [trunc, floor_toRat, Int.tdiv_eq_ediv_of_nonneg (toRat_nonneg_iff.mp h)]

theorem trunc_neg (x : Fraction) : (-x).trunc = -x.trunc := Int.neg_tdiv x.num x.den

/-- `trunc` rounds toward zero. -/
theorem trunc_eq (x : Fraction) : x.trunc = if 0 ≤ x.toRat then ⌊x.toRat⌋ else ⌈x.toRat⌉ := by
  split
  · next h => exact trunc_of_nonneg h
  · next h =>
    have hneg : 0 ≤ (-x).toRat := by
      rw [toRat_neg]
      exact neg_nonneg.mpr (not_le.mp h).le
    have := trunc_of_nonneg hneg
    rw [trunc_neg, toRat_neg, Int.floor_neg] at this
    exact neg_injective this

/-! ### Parts of a literal -/

section
variable {fault : ArithmeticFault}

theorem checkTenPower_error {e : Nat} (h : checkTenPower e = .error fault) :
    ∃ reason, fault = .domain reason := by
  rw [checkTenPower] at h
  split at h
  · exact ⟨_, (Except.error.inj h).symm⟩
  · cases h

theorem spelledInteger_error {cs : List Char} (h : spelledInteger cs = .error fault) :
    ∃ reason, fault = .domain reason := by
  rw [spelledInteger] at h
  split at h
  · cases h
  · exact ⟨_, (Except.error.inj h).symm⟩

theorem spelledExponent_error {cs : List Char} (h : spelledExponent cs = .error fault) :
    ∃ reason, fault = .domain reason := by
  rw [spelledExponent] at h
  split at h
  · cases h
  · exact ⟨_, (Except.error.inj h).symm⟩

theorem ofDigits_error {integer plain repeating : List Char}
    (h : ofDigits integer plain repeating = .error fault) : ∃ reason, fault = .domain reason := by
  obtain h | ⟨head, -, h⟩ := bind_eq_error h
  · exact spelledInteger_error h
  split at h
  · obtain h | ⟨_, -, h⟩ := bind_eq_error h
    · exact checkTenPower_error h
    · cases h
  · obtain h | ⟨full, -, h⟩ := bind_eq_error h
    · exact spelledInteger_error h
    obtain h | ⟨_, -, h⟩ := bind_eq_error h
    · exact checkTenPower_error h
    obtain h | ⟨_, -, h⟩ := bind_eq_error h
    · exact checkTenPower_error h
    · cases h

theorem scale_error {x : Fraction} {e : Int} (h : x.scale e = .error fault) :
    ∃ reason, fault = .domain reason := by
  obtain h | ⟨_, -, h⟩ := bind_eq_error h
  · exact checkTenPower_error h
  · split at h <;> cases h

/-- Parts that have no value are no division by zero. -/
theorem ofParts_error {integer plain repeating : List Char} {exponent : Option (List Char)}
    (h : ofParts integer plain repeating exponent = .error fault) :
    ∃ reason, fault = .domain reason := by
  obtain h | ⟨x, -, h⟩ := bind_eq_error h
  · exact ofDigits_error h
  split at h
  · cases h
  · obtain h | ⟨e, -, h⟩ := bind_eq_error h
    · exact spelledExponent_error h
    obtain h | ⟨y, -, h⟩ := bind_eq_error h
    · exact scale_error h
    · cases h

end

end Fraction

/-! ### Computations -/

/-- A computation with fractions. -/
inductive Computation
  | ofInts (n d : Int)
  | ofInt (n : Int)
  | ofParts (integer plain repeating : List Char) (exponent : Option (List Char))
  | add (s t : Computation)
  | sub (s t : Computation)
  | mul (s t : Computation)
  | neg (s : Computation)
  | abs (s : Computation)
  | reduce (s : Computation)
  | floor (s : Computation)
  | ceil (s : Computation)
  | reciprocal (s : Computation)
  | div (s t : Computation)
  | pow (s : Computation) (e : Int)

namespace Computation

def value : Computation → Except ArithmeticFault Fraction
  | ofInts n d => Fraction.ofInts n d
  | ofInt n => .ok (Fraction.ofInt n)
  | ofParts integer plain repeating exponent => Fraction.ofParts integer plain repeating exponent
  | add s t => do return (← s.value) + (← t.value)
  | sub s t => do return (← s.value) - (← t.value)
  | mul s t => do return (← s.value) * (← t.value)
  | neg s => do return -(← s.value)
  | abs s => do return (← s.value).abs
  | reduce s => do return (← s.value).reduce
  | floor s => do return (← s.value).floor
  | ceil s => do return (← s.value).ceil
  | reciprocal s => do (← s.value).reciprocal
  | div s t => do (← s.value).div (← t.value)
  | pow s e => do (← s.value).pow e

/-- The same computation with numbers. -/
def number : Computation → Except ArithmeticFault ℚ
  | ofInts n d => if d = 0 then .error .zeroDenominator else .ok (n / d)
  | ofInt n => .ok n
  | ofParts integer plain repeating exponent =>
    (Fraction.ofParts integer plain repeating exponent).map Fraction.toRat
  | add s t => do return (← s.number) + (← t.number)
  | sub s t => do return (← s.number) - (← t.number)
  | mul s t => do return (← s.number) * (← t.number)
  | neg s => do return -(← s.number)
  | abs s => do return |← s.number|
  | reduce s => s.number
  | floor s => do return ⌊← s.number⌋
  | ceil s => do return ⌈← s.number⌉
  | reciprocal s => do
    let x ← s.number
    if x = 0 then .error .divideByZero else .ok x⁻¹
  | div s t => do
    let x ← s.number
    let y ← t.number
    if y = 0 then .error .divideByZero else .ok (x / y)
  | pow s e => do
    let x ← s.number
    if Fraction.maxPower < e.natAbs then
      .error (.domain ("exponent " ++ e.repr ++ " is too large"))
    else if e < 0 ∧ x = 0 then .error .divideByZero
    else .ok (x ^ e)

section
variable {m n : Except ArithmeticFault Fraction} {p q : Except ArithmeticFault ℚ}

/-- An operation on fractions followed by an operation on numbers. -/
theorem map_toRat_bind {f : Fraction → Except ArithmeticFault Fraction}
    {g : ℚ → Except ArithmeticFault ℚ} (hm : m.map Fraction.toRat = p)
    (hf : ∀ x, (f x).map Fraction.toRat = g x.toRat) :
    (m >>= f).map Fraction.toRat = p >>= g := by
  subst hm
  rcases m with fault | x
  · rfl
  · exact hf x

theorem map_toRat_bind₂ {f : Fraction → Fraction → Except ArithmeticFault Fraction}
    {g : ℚ → ℚ → Except ArithmeticFault ℚ} (hm : m.map Fraction.toRat = p)
    (hn : n.map Fraction.toRat = q) (hf : ∀ x y, (f x y).map Fraction.toRat = g x.toRat y.toRat) :
    (do f (← m) (← n)).map Fraction.toRat = (do g (← p) (← q)) :=
  map_toRat_bind hm fun x => map_toRat_bind hn (hf x)

end

/-- The value of a computation denotes its number, and there is none exactly if there is no number,
with the same fault. -/
theorem map_toRat_value (t : Computation) : t.value.map Fraction.toRat = t.number := by
  induction t with
  | ofInts n d => exact Fraction.map_toRat_ofInts n d
  | ofInt n => exact congrArg Except.ok (Fraction.toRat_ofInt n)
  | ofParts => rfl
  | add s t hs ht => exact map_toRat_bind₂ hs ht fun x y => congrArg Except.ok (x.toRat_add y)
  | sub s t hs ht => exact map_toRat_bind₂ hs ht fun x y => congrArg Except.ok (x.toRat_sub y)
  | mul s t hs ht => exact map_toRat_bind₂ hs ht fun x y => congrArg Except.ok (x.toRat_mul y)
  | neg s hs => exact map_toRat_bind hs fun x => congrArg Except.ok x.toRat_neg
  | abs s hs => exact map_toRat_bind hs fun x => congrArg Except.ok x.toRat_abs
  | reduce s hs =>
    have h := map_toRat_bind (f := fun x => pure x.reduce) (g := pure) hs fun x =>
      congrArg Except.ok x.toRat_reduce
    rwa [bind_pure] at h
  | floor s hs =>
    exact map_toRat_bind hs fun x => congrArg Except.ok (by rw [x.floor_eq, Fraction.toRat_ofInt])
  | ceil s hs =>
    exact map_toRat_bind hs fun x => congrArg Except.ok (by rw [x.ceil_eq, Fraction.toRat_ofInt])
  | reciprocal s hs => exact map_toRat_bind hs Fraction.map_toRat_reciprocal
  | div s t hs ht => exact map_toRat_bind₂ hs ht Fraction.map_toRat_div
  | pow s e hs => exact map_toRat_bind hs fun x => x.map_toRat_pow e

/-- Arithmetic is exact. Every computation gives the fraction of its number, with a positive
denominator, or fails where the number does not exist; every fraction is the value of one, and parts
of a literal that have no value are no division by zero. Reducing gives lowest terms, and does so
once. `floor`, `ceil` and `trunc` round down, up and toward zero. -/
theorem value_exact :
    (∀ t : Computation, t.value.map Fraction.toRat = t.number) ∧
    (∀ (t : Computation) (x : Fraction), t.value = .ok x → 0 < x.den) ∧
    (∀ x : Fraction, (ofInts x.num x.den).value = .ok x) ∧
    (∀ integer plain repeating exponent fault,
      (ofParts integer plain repeating exponent).value = .error fault →
        ∃ reason, fault = .domain reason) ∧
    (∀ x : Fraction, x.reduce.toRat = x.toRat ∧ x.reduce.num.natAbs.Coprime x.reduce.den ∧
      x.reduce.reduce = x.reduce) ∧
    (∀ x : Fraction, ∃ m, x.floor = .ofInt m ∧ IsGreatest {k : ℤ | (k : ℚ) ≤ x.toRat} m) ∧
    (∀ x : Fraction, ∃ m, x.ceil = .ofInt m ∧ IsLeast {k : ℤ | x.toRat ≤ (k : ℚ)} m) ∧
    ∀ x : Fraction, x.trunc = if 0 ≤ x.toRat then ⌊x.toRat⌋ else ⌈x.toRat⌉ := by
  refine ⟨map_toRat_value, fun _ x _ => x.den_pos, Fraction.ofInts_num_den,
    fun _ _ _ _ _ => Fraction.ofParts_error,
    fun x => ⟨x.toRat_reduce, x.coprime_reduce, x.reduce_reduce⟩, fun x => ?_, fun x => ?_,
    Fraction.trunc_eq⟩
  · exact ⟨_, x.floor_eq, Int.floor_le x.toRat, fun _ hk => Int.le_floor.mpr hk⟩
  · exact ⟨_, x.ceil_eq, Int.le_ceil x.toRat, fun _ hk => Int.ceil_le.mpr hk⟩

/-- A sign goes through a reciprocal, a power and rounding. -/
example : (floor (pow (reciprocal (ofInts 4 (-6))) 3)).value = .ok (.ofInt (-4)) := by decide

end Computation

end Reckon
