import Mathlib
import Reckon.Proofs.Rational

/-!
# Comparing and hashing fractions

Both comparisons are cross multiplications, and since denominators are positive they compare the
numbers (`compare_eq`, `same_iff`). So the laws of a total order are those of the rational numbers,
whatever pairs the numbers are held as. A hasher is fed the pair of lowest terms, of which each number
has one (`key_eq_iff`). If it is written so that the data of one integer can be told from what follows
them, then different numbers have different data (`key_eq_of_written`).
-/

namespace Reckon

/-! ### Data of integers -/

/-- No data are a start of other ones, so it can be told where the data of an integer end. -/
def PrefixFree {α : Type} (write : Int → List α) : Prop := ∀ m n, write m <+: write n → m = n

theorem PrefixFree.append_inj {α : Type} {write : Int → List α} (h : PrefixFree write) {m n : Int}
    {u v : List α} (heq : write m ++ u = write n ++ v) : m = n ∧ u = v := by
  have hmn : m = n := by
    rcases List.prefix_or_prefix_of_prefix (List.prefix_append (write m) u)
      (heq ▸ List.prefix_append (write n) v) with hp | hp
    · exact h m n hp
    · exact (h n m hp).symm
  subst hmn
  exact ⟨rfl, List.append_cancel_left heq⟩

namespace Fraction

variable {x y z : Fraction}

/-! ### The order -/

/-- Comparing fractions is comparing what they denote. -/
theorem compare_eq (x y : Fraction) : Ord.compare x y = Ord.compare x.toRat y.toRat := by
  have hx : (0 : ℚ) < x.den := Nat.cast_pos.mpr x.den_pos
  have hy : (0 : ℚ) < y.den := Nat.cast_pos.mpr y.den_pos
  have lt_iff : x.num * y.den < y.num * x.den ↔ x.toRat < y.toRat := by
    rw [toRat, toRat, div_lt_div_iff₀ hx hy]
    exact_mod_cast Iff.rfl
  have eq_iff : x.num * y.den = y.num * x.den ↔ x.toRat = y.toRat := toRat_eq_iff.symm
  show Ord.compare (x.num * y.den) (y.num * x.den) = _
  rw [LinearOrder.compare_eq_compareOfLessAndEq, LinearOrder.compare_eq_compareOfLessAndEq]
  simp only [compareOfLessAndEq, lt_iff, eq_iff]

theorem isLE_compare_iff : (Ord.compare x y).isLE ↔ x.toRat ≤ y.toRat := by
  rw [compare_eq, Ordering.isLE_iff_ne_gt]
  exact compare_le_iff_le

theorem compare_eq_eq_iff : Ord.compare x y = .eq ↔ x.same y := by
  rw [compare_eq, compare_eq_iff_eq, same_iff]

instance : Std.TransOrd Fraction where
  eq_swap {x y} := by
    rw [compare_eq, compare_eq]
    exact Std.OrientedOrd.eq_swap
  isLE_trans {x y z} hxy hyz := by
    rw [isLE_compare_iff] at hxy hyz ⊢
    exact hxy.trans hyz

theorem isLE_compare_total (x y : Fraction) : (Ord.compare x y).isLE ∨ (Ord.compare y x).isLE := by
  rw [isLE_compare_iff, isLE_compare_iff]
  exact le_total x.toRat y.toRat

theorem same_of_isLE (hxy : (Ord.compare x y).isLE) (hyx : (Ord.compare y x).isLE) : x.same y := by
  rw [isLE_compare_iff] at hxy hyx
  exact same_iff.mpr (le_antisymm hxy hyx)

/-! ### What is hashed -/

theorem reduce_eq_iff : x.reduce = y.reduce ↔ x.same y := by
  rw [same_iff]
  constructor
  · intro h
    rw [← toRat_reduce x, h, toRat_reduce]
  · exact reduce_eq_of_toRat

theorem key_eq_iff : x.key = y.key ↔ x.same y := by
  rw [← reduce_eq_iff, Fraction.ext_iff, key, key, Prod.mk.injEq]

theorem hashInto_written {α : Type} (write : Int → List α) (s : List α) (x : Fraction) :
    x.hashInto (fun s n => s ++ write n) s = s ++ (write x.key.1 ++ write x.key.2) :=
  List.append_assoc _ _ _

theorem key_eq_of_written {α : Type} {write : Int → List α} (h : PrefixFree write) {s : List α}
    (heq : x.hashInto (fun s n => s ++ write n) s = y.hashInto (fun s n => s ++ write n) s) :
    x.key = y.key := by
  rw [hashInto_written, hashInto_written] at heq
  obtain ⟨hnum, hrest⟩ := h.append_inj (List.append_cancel_left heq)
  have hden : (x.key.2 : Int) = y.key.2 := h _ _ (hrest ▸ List.prefix_rfl)
  exact Prod.ext hnum (Int.natCast_inj.mp hden)

/-! ### Coherence -/

/-- The order is total, up to being the same, and that of the numbers. Fractions are the same if none
goes before the other one, if they have the same lowest terms, and if all hashers treat them alike:
the data of any others differ, behind whatever was written before. -/
theorem compare_coherent (x y z : Fraction) :
    (Ord.compare x y = Ord.compare x.toRat y.toRat ∧
      Ord.compare y x = (Ord.compare x y).swap ∧
      ((Ord.compare x y).isLE ∨ (Ord.compare y x).isLE) ∧
      ((Ord.compare x y).isLE → (Ord.compare y x).isLE → x.same y) ∧
      ((Ord.compare x y).isLE → (Ord.compare y z).isLE → (Ord.compare x z).isLE)) ∧
    (Ord.compare x y = .eq ↔ x.same y) ∧
    (x.same y ↔ x.reduce.num = y.reduce.num ∧ x.reduce.den = y.reduce.den) ∧
    (x.same y → ∀ {σ : Type} (feed : σ → Int → σ) (s : σ), x.hashInto feed s = y.hashInto feed s) ∧
    (¬ x.same y → ∀ {α : Type} {write : Int → List α}, PrefixFree write → ∀ s,
      x.hashInto (fun s n => s ++ write n) s ≠ y.hashInto (fun s n => s ++ write n) s) := by
  refine ⟨⟨compare_eq x y, Std.OrientedOrd.eq_swap, isLE_compare_total x y, same_of_isLE,
    Std.TransOrd.isLE_trans⟩, compare_eq_eq_iff, ?_, ?_, ?_⟩
  · rw [← reduce_eq_iff, Fraction.ext_iff]
  · intro h σ feed s
    rw [hashInto, hashInto, key_eq_iff.mpr h]
  · intro h α write hwrite s heq
    exact h (key_eq_iff.mp (key_eq_of_written hwrite heq))

/-- Two halves and three fifths. An integer is written as its sign, the number of its digits in base
`2 ^ 64` and its digits, of which each of these has one. -/
theorem compare_coherent_halves :
    ∃ (x y z : Fraction) (write : Int → List Int), x = ⟨2, 4, by decide⟩ ∧ y = ⟨1, 2, by decide⟩ ∧
      z = ⟨3, 5, by decide⟩ ∧ (∀ n, write n = [n.sign + 1, 1, n.natAbs]) ∧
      ((Ord.compare x y).isLE ∧ (Ord.compare y x).isLE ∧ x.same y) ∧
      ((Ord.compare y z).isLE ∧ (Ord.compare x z).isLE) ∧
      x.hashInto (fun s n => s ++ write n) [] = y.hashInto (fun s n => s ++ write n) [] ∧
      ¬ x.same z ∧ PrefixFree write ∧
      x.hashInto (fun s n => s ++ write n) [] ≠ z.hashInto (fun s n => s ++ write n) [] := by
  have prefixFree : PrefixFree fun n : Int => [n.sign + 1, 1, n.natAbs] := by
    intro m n h
    have heq := h.eq_of_length rfl
    simp only [List.cons.injEq, add_left_inj, Int.natCast_inj] at heq
    rw [← Int.sign_mul_natAbs m, ← Int.sign_mul_natAbs n, heq.1, heq.2.2.1]
  obtain ⟨⟨-, -, -, antisymm, trans⟩, -, -, alike, -⟩ :=
    compare_coherent ⟨2, 4, by decide⟩ ⟨1, 2, by decide⟩ ⟨3, 5, by decide⟩
  obtain ⟨-, -, -, -, differ⟩ :=
    compare_coherent ⟨2, 4, by decide⟩ ⟨3, 5, by decide⟩ ⟨3, 5, by decide⟩
  have same := antisymm (by decide) (by decide)
  exact ⟨_, _, _, _, rfl, rfl, rfl, fun _ => rfl, ⟨by decide, by decide, same⟩,
    ⟨by decide, trans (by decide) (by decide)⟩, alike same _ _, by decide, prefixFree,
    differ (by decide) prefixFree _⟩

end Fraction

end Reckon
