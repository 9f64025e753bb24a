import Mathlib
import Reckon.Function.Builtin
import Reckon.Proofs.Arithmetic
import Reckon.Proofs.Comparison

/-!
# What the built-in functions compute

Sum and product are folds over values that need not be in lowest terms, so they are followed through
the numbers (`toRat_foldl_add`, `toRat_foldl_mul`). Least and greatest are one fold that keeps one of
two values, the one that comes before the other in an order (`Prefers`). The order of the arguments
shows in which of several equal values is kept, and nowhere else.

The remainder is that of a division cut toward zero. `Remainder` says what it is without the division:
smaller than the divisor, with the sign of the dividend, and short of the dividend by a whole multiple.
There is one such number (`Leaves.unique`).
-/

namespace Reckon

/-! ### Remainders -/

/-- The whole number of `q` without what stands behind its point. -/
def truncate (q : ℚ) : ℤ := if 0 ≤ q then ⌊q⌋ else ⌈q⌉

/-- The number `r` is what is left of `a` after a whole multiple of `b`. -/
structure Leaves (a b r : ℚ) : Prop where
  small : |r| < |b|
  whole : ∃ k : ℤ, (a - r) / b = k
  sign : r = 0 ∨ SignType.sign r = SignType.sign a

theorem abs_sub_truncate_lt (q : ℚ) : |q - truncate q| < 1 := by
  rw [abs_lt, truncate]
  split
  · have hle := Int.floor_le q
    have hlt := Int.lt_floor_add_one q
    constructor <;> linarith
  · have hle := Int.le_ceil q
    have hlt := Int.ceil_lt_add_one q
    constructor <;> linarith

theorem mul_sub_truncate_nonneg (q : ℚ) : 0 ≤ q * (q - truncate q) := by
  rw [truncate]
  split
  · next h => exact mul_nonneg h (sub_nonneg.mpr (Int.floor_le q))
  · next h => exact mul_nonneg_of_nonpos_of_nonpos (not_le.mp h).le (sub_nonpos.mpr (Int.le_ceil q))

variable {a b r s : ℚ}

theorem sign_eq_of_mul_pos (h : 0 < r * s) : SignType.sign r = SignType.sign s := by
  rcases pos_and_pos_or_neg_and_neg_of_mul_pos h with ⟨hr, hs⟩ | ⟨hr, hs⟩
  · rw [sign_pos hr, sign_pos hs]
  · rw [sign_neg hr, sign_neg hs]

theorem leaves_truncate (a : ℚ) (hb : b ≠ 0) : Leaves a b (a - b * truncate (a / b)) := by
  have factor : a - b * truncate (a / b) = b * (a / b - truncate (a / b)) := by
    rw [mul_sub, mul_div_cancel₀ a hb]
  refine ⟨?_, ⟨truncate (a / b), ?_⟩, ?_⟩
  · rw [factor, abs_mul]
    exact mul_lt_of_lt_one_right (abs_pos.mpr hb) (abs_sub_truncate_lt _)
  · rw [sub_sub_cancel, mul_div_cancel_left₀ _ hb]
  · have nonneg : 0 ≤ (a - b * truncate (a / b)) * a := by
      have := mul_nonneg (sq_nonneg b) (mul_sub_truncate_nonneg (a / b))
      rw [factor]
      calc
        0 ≤ b ^ 2 * (a / b * (a / b - truncate (a / b))) := this
        _ = b * (a / b - truncate (a / b)) * a := by field_simp
    rcases nonneg.eq_or_lt with h | h
    · refine .inl ((mul_eq_zero.mp h.symm).elim id fun ha => ?_)
      rw [ha, zero_div, truncate, if_pos le_rfl, Int.floor_zero, Int.cast_zero, mul_zero, sub_zero]
    · exact .inr (sign_eq_of_mul_pos h)

namespace Leaves

/-- Both lie on the same side of zero, so they are closer than `b`. -/
theorem abs_sub_lt (hr : Leaves a b r) (hs : Leaves a b s) : |r - s| < |b| := by
  have hr' := hr.small
  have hs' := hs.small
  rcases hr.sign with rfl | hra
  · rwa [zero_sub, abs_neg]
  rcases hs.sign with rfl | hsa
  · rwa [sub_zero]
  rcases lt_trichotomy r 0 with h | rfl | h
  · have hneg : s < 0 := sign_eq_neg_one_iff.mp (hsa.trans (hra.symm.trans (sign_neg h)))
    rw [abs_of_neg h] at hr'
    rw [abs_of_neg hneg] at hs'
    rw [abs_lt]
    constructor <;> linarith
  · rwa [zero_sub, abs_neg]
  · have hpos : 0 < s := sign_eq_one_iff.mp (hsa.trans (hra.symm.trans (sign_pos h)))
    rw [abs_of_pos h] at hr'
    rw [abs_of_pos hpos] at hs'
    rw [abs_lt]
    constructor <;> linarith

theorem unique (hr : Leaves a b r) (hs : Leaves a b s) : r = s := by
  have hb : b ≠ 0 := abs_pos.mp ((abs_nonneg r).trans_lt hr.small)
  obtain ⟨k, hk⟩ := hr.whole
  obtain ⟨l, hl⟩ := hs.whole
  have hdiff : r - s = b * ((l - k : ℤ) : ℚ) := by
    rw [div_eq_iff hb] at hk hl
    push_cast
    linarith
  have hlt := hr.abs_sub_lt hs
  rw [hdiff, abs_mul] at hlt
  have hone : |((l - k : ℤ) : ℚ)| < 1 := lt_of_mul_lt_mul_left (by rwa [mul_one]) (abs_nonneg b)
  have hzero : l - k = 0 := Int.abs_lt_one_iff.mp (by exact_mod_cast hone)
  rw [hzero, Int.cast_zero, mul_zero] at hdiff
  exact sub_eq_zero.mp hdiff

end Leaves

/-! ### Folds -/

namespace Fraction

variable {x y z : Fraction} {xs ys : List Fraction}

theorem toRat_foldl_add (xs : List Fraction) (x : Fraction) :
    (xs.foldl (· + ·) x).toRat = x.toRat + (xs.map toRat).sum := by
  induction xs generalizing x with
  | nil => simp
  | cons y xs ih => rw [List.foldl_cons, ih, toRat_add, List.map_cons, List.sum_cons, add_assoc]

theorem toRat_foldl_mul (xs : List Fraction) (x : Fraction) :
    (xs.foldl (· * ·) x).toRat = x.toRat * (xs.map toRat).prod := by
  induction xs generalizing x with
  | nil => simp
  | cons y xs ih => rw [List.foldl_cons, ih, toRat_mul, List.map_cons, List.prod_cons, mul_assoc]

/-- The choice `f` keeps one of two values, which is at most both of them in the order `R`. -/
structure Prefers (R : Fraction → Fraction → Prop) (f : Fraction → Fraction → Fraction) : Prop where
  eq_or : ∀ x y, f x y = x ∨ f x y = y
  left : ∀ x y, R (f x y) x
  right : ∀ x y, R (f x y) y

theorem Prefers.foldl {R : Fraction → Fraction → Prop} {f : Fraction → Fraction → Fraction}
    (hf : Prefers R f) (refl : ∀ x, R x x) (trans : ∀ {x y z}, R x y → R y z → R x z)
    (xs : List Fraction) (x : Fraction) :
    xs.foldl f x ∈ x :: xs ∧ ∀ y ∈ x :: xs, R (xs.foldl f x) y := by
  induction xs generalizing x with
  | nil => simp [refl]
  | cons z xs ih =>
    obtain ⟨hmem, hle⟩ := ih (f x z)
    rw [List.foldl_cons]
    have best : R (xs.foldl f (f x z)) (f x z) := hle _ (List.mem_cons_self ..)
    constructor
    · rcases List.mem_cons.mp hmem with h | h
      · rw [h]
        rcases hf.eq_or x z with h' | h' <;> simp [h']
      · simp [h]
    · intro y hy
      rcases List.mem_cons.mp hy with rfl | hy
      · exact trans best (hf.left _ _)
      rcases List.mem_cons.mp hy with rfl | hy
      · exact trans best (hf.right _ _)
      · exact hle y (List.mem_cons_of_mem _ hy)

theorem isLE_of_lt (h : Fraction.compare x y = .lt) : (Ord.compare x y).isLE := by
  show (Fraction.compare x y).isLE
  rw [h]
  rfl

theorem isLE_of_not_lt (h : ¬ Fraction.compare y x = .lt) : (Ord.compare x y).isLE := by
  have h' : ¬ Ord.compare y x = .lt := h
  rw [compare_eq, compare_lt_iff_lt, not_lt] at h'
  exact isLE_compare_iff.mpr h'

theorem isLE_refl (x : Fraction) : (Ord.compare x x).isLE := isLE_compare_iff.mpr le_rfl

theorem prefers_min : Prefers (fun x y => (Ord.compare x y).isLE)
    fun x y => if Fraction.compare y x = .lt then y else x where
  eq_or x y := by split <;> simp
  left x y := by
    split
    · next h => exact isLE_of_lt h
    · exact isLE_refl x
  right x y := by
    split
    · exact isLE_refl y
    · next h => exact isLE_of_not_lt h

theorem prefers_max : Prefers (fun x y => (Ord.compare y x).isLE)
    fun x y => if Fraction.compare y x = .lt then x else y where
  eq_or x y := by split <;> simp
  left x y := by
    split
    · exact isLE_refl x
    · next h => exact isLE_of_not_lt h
  right x y := by
    split
    · next h => exact isLE_of_lt h
    · exact isLE_refl y

/-- `r` is what is left of `a` after a whole multiple of `b`, in lowest terms. -/
structure Remainder (a b r : Fraction) : Prop where
  leaves : Leaves a.toRat b.toRat r.toRat
  lowest : r.num.natAbs.Coprime r.den

theorem Remainder.unique {a b r s : Fraction} (hr : Remainder a b r) (hs : Remainder a b s) :
    r = s :=
  eq_of_coprime hr.lowest hs.lowest (toRat_eq_iff.mp (hr.leaves.unique hs.leaves))

end Fraction

/-! ### The functions -/

namespace Builtin

open Fraction

variable {xs ys : List Fraction} {name : String}

/-- What the function that is found for the name and the number of values makes of them. -/
def call (name : String) (xs : List Fraction) : Option (Except ArithmeticFault Fraction) :=
  (table.lookup name xs.length).map fun f => f.operation xs

theorem call_eq {arity : Arity} {f : Operation} (h : table.overloads name = [⟨arity, f⟩])
    (ha : arity.accepts xs.length) : call name xs = some (f xs) := by
  simp [call, FunctionTable.lookup, h, ha]

theorem sum_eq (xs : List Fraction) : sum xs = .ok (ofRat (xs.map toRat).sum) := by
  have hzero : zero.toRat = 0 := toRat_ofInt 0
  rw [sum, reduce_eq_ofRat, toRat_foldl_add, hzero, zero_add]

theorem product_eq (xs : List Fraction) : product xs = .ok (ofRat (xs.map toRat).prod) := by
  have hone : one.toRat = 1 := (toRat_ofInt 1).trans Int.cast_one
  rw [product, reduce_eq_ofRat, toRat_foldl_mul, hone, one_mul]

theorem exists_min (h : xs ≠ []) :
    ∃ m ∈ xs, min xs = .ok m ∧ ∀ y ∈ xs, (Ord.compare m y).isLE := by
  obtain ⟨x, xs, rfl⟩ := List.exists_cons_of_ne_nil h
  obtain ⟨hmem, hle⟩ := prefers_min.foldl isLE_refl Std.TransOrd.isLE_trans xs x
  exact ⟨_, hmem, rfl, hle⟩

theorem exists_max (h : xs ≠ []) :
    ∃ m ∈ xs, max xs = .ok m ∧ ∀ y ∈ xs, (Ord.compare y m).isLE := by
  obtain ⟨x, xs, rfl⟩ := List.exists_cons_of_ne_nil h
  obtain ⟨hmem, hle⟩ := prefers_max.foldl isLE_refl (fun h h' => Std.TransOrd.isLE_trans h' h) xs x
  exact ⟨_, hmem, rfl, hle⟩

theorem mod_eq (x y : Fraction) : mod [x, y] =
    if y.toRat = 0 then .error .divideByZero
    else .ok (ofRat (x.toRat - y.toRat * truncate (x.toRat / y.toRat))) := by
  have hdiv := map_toRat_div x y
  rw [mod]
  rcases h : x.div y with fault | q
  · rw [h] at hdiv
    split at hdiv
    · next hy => rw [if_pos hy, Except.error.inj hdiv]
    · cases hdiv
  · rw [h] at hdiv
    split at hdiv
    · cases hdiv
    · next hy =>
      have hq : q.toRat = x.toRat / y.toRat := Except.ok.inj hdiv
      have value : (x - y * ofInt q.trunc).reduce =
          ofRat (x.toRat - y.toRat * truncate (x.toRat / y.toRat)) := by
        rw [reduce_eq_ofRat, toRat_sub, toRat_mul, toRat_ofInt, trunc_eq, hq, truncate]
      rw [if_neg hy, ← value]

/-! ### By name -/

theorem call_atLeast {f : Operation} (h : table.overloads name = [⟨.atLeast 1, f⟩]) (hne : xs ≠ []) :
    call name xs = some (f xs) :=
  call_eq h (decide_eq_true (List.length_pos_iff.mpr hne))

theorem call_mod (x y : Fraction) : call "mod" [x, y] = some (mod [x, y]) := call_eq rfl rfl

/-- Values in another order give the same number, which may be another pair. -/
theorem exists_same_of_perm (hne : xs ≠ []) (h : xs.Perm ys)
    (hname : name ∈ ["sum", "product", "min", "max"]) :
    ∃ r s, call name xs = some (.ok r) ∧ call name ys = some (.ok s) ∧ r.same s := by
  have hne' : ys ≠ [] := fun he => hne (List.Perm.eq_nil (he ▸ h))
  have hmap : (xs.map toRat).Perm (ys.map toRat) := h.map _
  simp only [List.mem_cons, List.not_mem_nil, or_false] at hname
  rcases hname with rfl | rfl | rfl | rfl
  · rw [call_atLeast rfl hne, call_atLeast rfl hne', sum_eq, sum_eq, hmap.sum_eq]
    exact ⟨_, _, rfl, rfl, same_iff.mpr rfl⟩
  · rw [call_atLeast rfl hne, call_atLeast rfl hne', product_eq, product_eq, hmap.prod_eq]
    exact ⟨_, _, rfl, rfl, same_iff.mpr rfl⟩
  · obtain ⟨m, hm, hmin, hle⟩ := exists_min hne
    obtain ⟨m', hm', hmin', hle'⟩ := exists_min hne'
    rw [call_atLeast rfl hne, call_atLeast rfl hne', hmin, hmin']
    exact ⟨_, _, rfl, rfl, same_of_isLE (hle _ (h.mem_iff.mpr hm')) (hle' _ (h.mem_iff.mp hm))⟩
  · obtain ⟨m, hm, hmax, hle⟩ := exists_max hne
    obtain ⟨m', hm', hmax', hle'⟩ := exists_max hne'
    rw [call_atLeast rfl hne, call_atLeast rfl hne', hmax, hmax']
    exact ⟨_, _, rfl, rfl, same_of_isLE (hle' _ (h.mem_iff.mp hm)) (hle _ (h.mem_iff.mpr hm'))⟩

/-- Sum and product of any number of values are exact and in lowest terms; the least and the greatest
one are among the values. The order of the values does not matter. The remainder of two values is
undefined if the divisor is zero, and the only remainder there is otherwise. -/
theorem call_exact (hne : xs ≠ []) (a b : Fraction) :
    call "sum" xs = some (.ok (ofRat (xs.map toRat).sum)) ∧
    call "product" xs = some (.ok (ofRat (xs.map toRat).prod)) ∧
    (∃ m ∈ xs, call "min" xs = some (.ok m) ∧ ∀ y ∈ xs, (Ord.compare m y).isLE) ∧
    (∃ m ∈ xs, call "max" xs = some (.ok m) ∧ ∀ y ∈ xs, (Ord.compare y m).isLE) ∧
    (∀ ys, xs.Perm ys → ∀ name ∈ ["sum", "product", "min", "max"],
      ∃ r s, call name xs = some (.ok r) ∧ call name ys = some (.ok s) ∧ r.same s) ∧
    (call "mod" [a, b] = some (.error .divideByZero) ↔ b.toRat = 0) ∧
    (b.toRat ≠ 0 → ∃ r, call "mod" [a, b] = some (.ok r) ∧ Remainder a b r ∧
      ∀ s, Remainder a b s → s = r) := by
  refine ⟨?_, ?_, ?_, ?_, fun ys h name hname => exists_same_of_perm hne h hname, ?_, fun hb => ?_⟩
  · rw [call_atLeast rfl hne, sum_eq]
  · rw [call_atLeast rfl hne, product_eq]
  · obtain ⟨m, hm, hmin, hle⟩ := exists_min hne
    exact ⟨m, hm, by rw [call_atLeast rfl hne, hmin], hle⟩
  · obtain ⟨m, hm, hmax, hle⟩ := exists_max hne
    exact ⟨m, hm, by rw [call_atLeast rfl hne, hmax], hle⟩
  · rw [call_mod, mod_eq]
    split <;> simp [*]
  · have remainder : Remainder a b (ofRat (a.toRat - b.toRat * truncate (a.toRat / b.toRat))) :=
      ⟨by rw [toRat_ofRat]; exact leaves_truncate _ hb, Rat.reduced _⟩
    exact ⟨_, by rw [call_mod, mod_eq, if_neg hb], remainder, fun s hs => hs.unique remainder⟩

/-- Two halves, of which one is not reduced, and a negative value; and `mod(-7.5, -2)`. -/
theorem call_exact_halves :
    ∃ x y z a b r : Fraction, x = ⟨2, 4, by decide⟩ ∧ y = ⟨1, 2, by decide⟩ ∧ z = .ofInt (-3) ∧
      a = ⟨-15, 2, by decide⟩ ∧ b = .ofInt (-2) ∧ r = ⟨-3, 2, by decide⟩ ∧ [x, y, z] ≠ [] ∧
      call "sum" [x, y, z] = some (.ok (ofRat (-2))) ∧
      [x, y, z].Perm [y, z, x] ∧
      (∃ m m', call "max" [x, y, z] = some (.ok m) ∧ call "max" [y, z, x] = some (.ok m') ∧
        m.same m') ∧
      b.toRat ≠ 0 ∧ call "mod" [a, b] = some (.ok r) := by
  have hne : [(⟨2, 4, by decide⟩ : Fraction), ⟨1, 2, by decide⟩, .ofInt (-3)] ≠ [] := List.cons_ne_nil _ _
  have hb : (ofInt (-2)).toRat ≠ 0 := by rw [toRat_ofInt]; norm_num
  obtain ⟨hsum, -, -, -, hperm, -, hmod⟩ := call_exact hne ⟨-15, 2, by decide⟩ (.ofInt (-2))
  have perm : [(⟨2, 4, by decide⟩ : Fraction), ⟨1, 2, by decide⟩, .ofInt (-3)].Perm
      [⟨1, 2, by decide⟩, .ofInt (-3), ⟨2, 4, by decide⟩] := by decide
  obtain ⟨r, hr, -, unique⟩ := hmod hb
  have remainder : Remainder ⟨-15, 2, by decide⟩ (.ofInt (-2)) ⟨-3, 2, by decide⟩ := by
    refine ⟨⟨?_, ⟨3, ?_⟩, .inr ?_⟩, by decide⟩
    · norm_num [toRat, ofInt]
    · norm_num [toRat, ofInt]
    · rw [sign_neg (by norm_num [toRat]), sign_neg (by norm_num [toRat])]
  refine ⟨_, _, _, _, _, _, rfl, rfl, rfl, rfl, rfl, rfl, hne, ?_, perm, ?_, hb, ?_⟩
  · rw [hsum]
    norm_num [toRat, ofInt]
  · exact hperm _ perm "max" (by decide)
  · rw [hr, unique _ remainder]

end Builtin

end Reckon
