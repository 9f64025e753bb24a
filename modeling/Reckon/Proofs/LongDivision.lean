import Mathlib
import Reckon.Fraction.Exact

/-!
# Long division with an eye on the remainders

`remainder` and `digitAt` are long division going on for ever. `Expansion.divide` is a stretch of it:
as long as it goes on its remainders are different from each other and from zero, so below `d` there
is no room for `d` of them (`Fresh.lt`) and its fuel never runs out. It ends at the remainder zero or
at one that was met before (`divide_spec`). Turning the cycle moves the place where it starts and
nothing else (`settle_spec`).

`Settled` is what comes of it, with the first places at which a remainder is zero or returns.
`Expands` leaves out that they are the first, and is all that reading the digits back needs.
-/

namespace Reckon

namespace Expansion

/-- The remainder after some steps of long division of `r` by `d`. -/
def remainder (d r : Nat) : Nat → Nat
  | 0 => r
  | i + 1 => 10 * remainder d r i % d

def digitAt (d r i : Nat) : Nat := 10 * remainder d r i / d

/-- `n` digits from the place `s` on. -/
def digits (d r s n : Nat) : List Nat := (List.range' s n).map (digitAt d r)

variable {d r : Nat}

theorem remainder_lt (hr : r < d) (i : Nat) : remainder d r i < d := by
  cases i with
  | zero => exact hr
  | succ i => exact Nat.mod_lt _ (Nat.zero_lt_of_lt hr)

theorem digitAt_lt (hr : r < d) (i : Nat) : digitAt d r i < 10 := by
  have := remainder_lt hr i
  exact Nat.div_lt_of_lt_mul (by omega)

/-- One step: the digit is the quotient and the next remainder is what is left. -/
theorem step_eq (i : Nat) :
    10 * remainder d r i = d * digitAt d r i + remainder d r (i + 1) :=
  (Nat.div_add_mod _ _).symm

theorem digits_zero (s : Nat) : digits d r s 0 = [] := rfl

theorem length_digits (s n : Nat) : (digits d r s n).length = n := by simp [digits]

theorem digits_succ (s n : Nat) :
    digits d r s (n + 1) = digits d r s n ++ [digitAt d r (s + n)] := by
  simp [digits, List.range'_concat]

theorem digits_cons (s n : Nat) :
    digits d r s (n + 1) = digitAt d r s :: digits d r (s + 1) n := by
  simp [digits, List.range'_succ]

theorem digits_append (s m n : Nat) :
    digits d r s m ++ digits d r (s + m) n = digits d r s (m + n) := by
  rw [digits, digits, ← List.map_append, List.range'_append_1, digits]

theorem mem_digits {s n c : Nat} (h : c ∈ digits d r s n) :
    ∃ i, s ≤ i ∧ i < s + n ∧ digitAt d r i = c := by
  obtain ⟨i, hi, rfl⟩ := List.mem_map.mp h
  obtain ⟨h1, h2⟩ := List.mem_range'_1.mp hi
  exact ⟨i, h1, h2, rfl⟩

/-! ### Periods -/

theorem remainder_add {m n : Nat} (h : remainder d r m = remainder d r n) (j : Nat) :
    remainder d r (m + j) = remainder d r (n + j) := by
  induction j with
  | zero => exact h
  | succ j ih => exact congrArg (fun x => 10 * x % d) ih

theorem digits_period {m n : Nat} (h : remainder d r m = remainder d r n) (k : Nat) :
    digits d r m k = digits d r n k := by
  induction k with
  | zero => rfl
  | succ k ih => rw [digits_succ, digits_succ, ih, digitAt, digitAt, remainder_add h]

/-- A remainder that goes on with zeros alone grows, so it does not return. -/
theorem exists_digit_ne_zero {m k : Nat} (hk : 0 < k) (h0 : remainder d r m ≠ 0)
    (h : remainder d r m = remainder d r (m + k)) :
    ∃ i, m ≤ i ∧ i < m + k ∧ digitAt d r i ≠ 0 := by
  by_contra hz
  push Not at hz
  have grow (j : Nat) (hj : j ≤ k) : remainder d r (m + j) = 10 ^ j * remainder d r m := by
    induction j with
    | zero => simp
    | succ j ih =>
      have := step_eq (d := d) (r := r) (m + j)
      rw [hz (m + j) (by omega) (by omega), ih (by omega), Nat.mul_zero, Nat.zero_add] at this
      rw [← Nat.add_assoc, ← this, pow_succ]
      ring
  have hpow : 1 < 10 ^ k := Nat.one_lt_pow (by omega) (by decide)
  have := grow k le_rfl
  rw [← h] at this
  nlinarith [Nat.pos_of_ne_zero h0]

/-! ### Dividing -/

/-- No division of the first `n` has come to an end. -/
structure Fresh (d r n : Nat) : Prop where
  ne_zero : ∀ i < n, remainder d r i ≠ 0
  distinct : ∀ i < n, ∀ j < n, remainder d r i = remainder d r j → i = j

theorem Fresh.zero : Fresh d r 0 := ⟨nofun, nofun⟩

theorem Fresh.succ {n : Nat} (h : Fresh d r n) (h0 : remainder d r n ≠ 0)
    (hne : ∀ i < n, remainder d r i ≠ remainder d r n) : Fresh d r (n + 1) := by
  constructor
  · intro i hi
    rcases Nat.lt_succ_iff_lt_or_eq.mp hi with hi | rfl
    exacts [h.ne_zero i hi, h0]
  · intro i hi j hj he
    rcases Nat.lt_succ_iff_lt_or_eq.mp hi with hi | rfl <;>
      rcases Nat.lt_succ_iff_lt_or_eq.mp hj with hj | rfl
    · exact h.distinct i hi j hj he
    · exact absurd he (hne i hi)
    · exact absurd he.symm (hne j hj)
    · rfl

/-- Different remainders, none of them zero, are fewer than `d`. -/
theorem Fresh.lt {n : Nat} (h : Fresh d r n) (hr : r < d) : n < d := by
  have hsub : (Finset.range n).image (remainder d r) ⊆ (Finset.range d).erase 0 := by
    intro x hx
    obtain ⟨i, hi, rfl⟩ := Finset.mem_image.mp hx
    exact Finset.mem_erase.mpr
      ⟨h.ne_zero i (Finset.mem_range.mp hi), Finset.mem_range.mpr (remainder_lt hr i)⟩
  have hcard : ((Finset.range n).image (remainder d r)).card = n := by
    rw [Finset.card_image_of_injOn, Finset.card_range]
    intro i hi j hj
    exact h.distinct i (by simpa using hi) j (by simpa using hj)
  have := Finset.card_le_card hsub
  rw [hcard, Finset.card_erase_of_mem (Finset.mem_range.mpr (by omega)), Finset.card_range] at this
  omega

/-- What a division answers: the digits up to the remainder zero, or up to one that was met before,
with the place where that was. -/
inductive Divides (d r : Nat) : List Nat × Option Nat → Prop
  | stops {n : Nat} (fresh : Fresh d r n) (h : remainder d r n = 0) :
      Divides d r (digits d r 0 n, none)
  | returns {s n : Nat} (fresh : Fresh d r n) (hs : s < n)
      (h : remainder d r s = remainder d r n) : Divides d r (digits d r 0 n, some s)

/-- A division comes to its end as soon as it can. -/
theorem Fresh.le {m n : Nat} (hn : Fresh d r n)
    (h : remainder d r m = 0 ∨ ∃ s < m, remainder d r s = remainder d r m) : n ≤ m := by
  refine not_lt.mp fun hlt => ?_
  rcases h with h | ⟨s, hs, h⟩
  · exact hn.ne_zero m hlt h
  · exact hs.ne (hn.distinct s (hs.trans hlt) m hlt h)

theorem Divides.unique {a b : List Nat × Option Nat} (ha : Divides d r a) (hb : Divides d r b) :
    a = b := by
  cases ha with
  | @stops m ha hm =>
    cases hb with
    | @stops n hb hn =>
      obtain rfl : m = n := (ha.le (.inl hn)).antisymm (hb.le (.inl hm))
      rfl
    | @returns s n hb hs hn =>
      obtain rfl : m = n := (ha.le (.inr ⟨s, hs, hn⟩)).antisymm (hb.le (.inl hm))
      exact absurd (hn.trans hm) (hb.ne_zero s hs)
  | @returns i m ha hi hm =>
    cases hb with
    | @stops n hb hn =>
      obtain rfl : m = n := (ha.le (.inl hn)).antisymm (hb.le (.inr ⟨i, hi, hm⟩))
      exact absurd (hm.trans hn) (ha.ne_zero i hi)
    | @returns s n hb hs hn =>
      obtain rfl : m = n := (ha.le (.inr ⟨s, hs, hn⟩)).antisymm (hb.le (.inr ⟨i, hi, hm⟩))
      rw [ha.distinct i hi s hs (hm.trans hn.symm)]

/-- The places of the first `n` remainders. -/
def Seen (d r n : Nat) (seen : Std.TreeMap Nat Nat) : Prop :=
  ∀ k i, seen[k]? = some i ↔ i < n ∧ remainder d r i = k

theorem Seen.new {n : Nat} {seen : Std.TreeMap Nat Nat} (h : Seen d r n seen)
    (hnew : seen[remainder d r n]? = none) (i : Nat) (hi : i < n) :
    remainder d r i ≠ remainder d r n := by
  intro he
  rw [(h _ i).mpr ⟨hi, he⟩] at hnew
  cases hnew

theorem Seen.insert {n : Nat} {seen : Std.TreeMap Nat Nat} (h : Seen d r n seen)
    (hnew : seen[remainder d r n]? = none) : Seen d r (n + 1) (seen.insert (remainder d r n) n) := by
  intro k i
  rw [Std.TreeMap.getElem?_insert]
  split
  · next hk =>
    obtain rfl : remainder d r n = k := compare_eq_iff_eq.mp hk
    constructor
    · rintro ⟨⟩
      exact ⟨Nat.lt_succ_self n, rfl⟩
    · rintro ⟨hi, he⟩
      rcases Nat.lt_succ_iff_lt_or_eq.mp hi with hi | rfl
      · exact absurd ((h _ _).mpr ⟨hi, he⟩) (by simp [hnew])
      · rfl
  · next hk =>
    rw [h]
    constructor
    · rintro ⟨hi, he⟩
      exact ⟨Nat.lt_succ_of_lt hi, he⟩
    · rintro ⟨hi, he⟩
      rcases Nat.lt_succ_iff_lt_or_eq.mp hi with hi | rfl
      · exact ⟨hi, he⟩
      · exact absurd (compare_eq_iff_eq.mpr he) hk

theorem divide_spec (hr : r < d) (fuel n : Nat) (hf : fuel + n = d) {seen : Std.TreeMap Nat Nat}
    (hs : Seen d r n seen) (h : Fresh d r n) :
    Divides d r (divide d fuel (remainder d r n) seen n (digits d r 0 n).reverse) := by
  induction fuel generalizing n seen with
  | zero =>
    have := h.lt hr
    omega
  | succ fuel ih =>
    rw [divide, List.reverse_reverse]
    split
    · next hz => exact .stops h hz
    · next hz =>
      cases hseen : seen[remainder d r n]? with
      | some s =>
        obtain ⟨hlt, he⟩ := (hs _ _).mp hseen
        exact .returns h hlt he
      | none =>
        have digit : digitAt d r n :: (digits d r 0 n).reverse = (digits d r 0 (n + 1)).reverse := by
          rw [digits_succ, Nat.zero_add, List.reverse_append, List.reverse_singleton]
          rfl
        have := ih (n + 1) (by omega) (hs.insert hseen) (h.succ hz (hs.new hseen))
        rwa [← digit] at this

theorem divides (hr : r < d) : Divides d r (divide d d r ∅ 0 []) := by
  refine divide_spec hr d 0 (Nat.add_zero d) ?_ .zero
  intro k i
  simp

/-! ### Turning the cycle -/

theorem settle_turn (plain turned cycle : List Nat) (c : Nat) :
    settle (0 :: plain) turned (c :: cycle) = settle (c :: 0 :: plain) (c :: turned) cycle := by
  rw [settle]

theorem settle_stop {plain : List Nat} (h : plain.head? ≠ some 0) (turned cycle : List Nat) :
    settle plain turned cycle = ⟨plain.reverse, cycle ++ turned.reverse⟩ := by
  cases plain with
  | nil => rw [settle]; exact nofun
  | cons c plain =>
    rw [settle]
    rintro _ _ _ ⟨⟩
    exact absurd rfl h

theorem reverse_digits (n : Nat) :
    (digits d r 0 (n + 1)).reverse = digitAt d r n :: (digits d r 0 n).reverse := by
  rw [digits_succ, Nat.zero_add, List.reverse_append, List.reverse_singleton, List.singleton_append]

theorem settle_nil (plain turned : List Nat) :
    settle plain turned [] = ⟨plain.reverse, turned.reverse⟩ := by
  rw [settle]
  exacts [rfl, nofun]

/-- One turn moves the start of the cycle by one place. -/
theorem settle_digits {s t k m : Nat} (hm : s + t = m + 1) (h0 : digitAt d r m = 0) :
    settle (digits d r 0 (s + t)).reverse (digits d r s t).reverse (digits d r (s + t) (k + 1)) =
      settle (digits d r 0 (s + (t + 1))).reverse (digits d r s (t + 1)).reverse
        (digits d r (s + (t + 1)) k) := by
  have front : (digits d r 0 (s + t)).reverse = 0 :: (digits d r 0 m).reverse := by
    rw [hm, reverse_digits, h0]
  rw [digits_cons, front, settle_turn, ← front, ← reverse_digits, digits_succ s t,
    List.reverse_append]
  rfl

/-- The cycle was turned past every place from `s` on and below `p`: a zero stands before it. -/
def Turned (d r s p : Nat) : Prop := ∀ i, s ≤ i → i < p → ∃ m, i = m + 1 ∧ digitAt d r m = 0

/-- After `t` turns the digits from `s` on were zeros, but for the last of them perhaps. -/
theorem settle_spec {s t k : Nat} (hz : ∀ i, s ≤ i → i + 1 < s + t → digitAt d r i = 0)
    (hnz : ∃ i, s ≤ i ∧ i < s + t + k ∧ digitAt d r i ≠ 0) :
    ∃ j ≤ k, settle (digits d r 0 (s + t)).reverse (digits d r s t).reverse (digits d r (s + t) k) =
        ⟨digits d r 0 (s + t + j), digits d r (s + t + j) (k - j) ++ digits d r s (t + j)⟩ ∧
      Turned d r (s + t) (s + t + j) ∧ ∀ m, s + t + j = m + 1 → digitAt d r m ≠ 0 := by
  induction k generalizing t with
  | zero =>
    refine ⟨0, le_rfl, ?_, fun i hi hlt => by omega, fun m hm hlast => ?_⟩
    · rw [digits_zero, settle_nil, List.reverse_reverse, List.reverse_reverse]
      rfl
    · obtain ⟨i, hi, hlt, hne⟩ := hnz
      rcases Nat.lt_or_ge (i + 1) (s + t) with h | h
      · exact hne (hz i hi h)
      · obtain rfl : i = m := by omega
        exact hne hlast
  | succ k ih =>
    by_cases hlast : ∀ m, s + t = m + 1 → digitAt d r m ≠ 0
    · refine ⟨0, Nat.zero_le _, ?_, fun i hi hlt => by omega, hlast⟩
      rw [settle_stop, List.reverse_reverse, List.reverse_reverse]
      · rfl
      · cases hm : s + t with
        | zero => exact nofun
        | succ m =>
          rw [reverse_digits]
          exact fun h => hlast m hm (Option.some.inj h)
    · push Not at hlast
      obtain ⟨m, hm, h0⟩ := hlast
      have hz' (i : Nat) (hi : s ≤ i) (hlt : i + 1 < s + (t + 1)) : digitAt d r i = 0 := by
        rcases Nat.lt_or_ge (i + 1) (s + t) with h | h
        · exact hz i hi h
        · obtain rfl : i = m := by omega
          exact h0
      obtain ⟨j, hj, he, ht, hl⟩ := ih hz' (by
        obtain ⟨i, hi, hlt, hne⟩ := hnz
        exact ⟨i, hi, by omega, hne⟩)
      refine ⟨j + 1, by omega, ?_, fun i hi hlt => ?_, fun m hm => hl m (by omega)⟩
      · rw [settle_digits hm h0, he, show s + t + (j + 1) = s + (t + 1) + j by omega,
          show t + (j + 1) = t + 1 + j by omega, show k + 1 - (j + 1) = k - j by omega]
      · rcases Nat.lt_or_eq_of_le hi with hi | rfl
        · exact ht i (by omega) (by omega)
        · exact ⟨m, hm, h0⟩

/-! ### The expansion -/

/-- What an expansion of `r / d` is: the digits of a division that ends, or those before and in one
of its periods. The digits before a period do not end in zero. -/
inductive Expands (d r : Nat) : Expansion → Prop
  | finite {n : Nat} (h0 : ∀ i < n, remainder d r i ≠ 0) (h : remainder d r n = 0) :
      Expands d r ⟨digits d r 0 n, []⟩
  | periodic {m k : Nat} (hk : 0 < k) (h0 : remainder d r m ≠ 0)
      (h : remainder d r m = remainder d r (m + k))
      (hlast : ∀ i, m = i + 1 → digitAt d r i ≠ 0) :
      Expands d r ⟨digits d r 0 m, digits d r m k⟩

theorem take_digits {s n : Nat} (h : s ≤ n) : (digits d r 0 n).take s = digits d r 0 s := by
  obtain ⟨k, rfl⟩ := Nat.exists_eq_add_of_le h
  rw [← digits_append, List.take_left' (length_digits 0 s)]

theorem drop_digits {s n : Nat} (h : s ≤ n) : (digits d r 0 n).drop s = digits d r s (n - s) := by
  obtain ⟨k, rfl⟩ := Nat.exists_eq_add_of_le h
  rw [← digits_append, List.drop_left' (length_digits 0 s), Nat.zero_add, Nat.add_sub_cancel_left]

/-- An expansion with the reason why it ends where it does. No remainder was met twice before, so the
places `n`, or `s` and `s + k`, are the first ones that do. -/
inductive Settled (d r : Nat) : Expansion → Prop
  | finite {n : Nat} (fresh : Fresh d r n) (h : remainder d r n = 0) :
      Settled d r ⟨digits d r 0 n, []⟩
  | periodic {s k p : Nat} (fresh : Fresh d r (s + k)) (hk : 0 < k)
      (h : remainder d r s = remainder d r (s + k)) (hs : s ≤ p) (hp : p ≤ s + k)
      (turned : Turned d r s p) (hlast : ∀ i, p = i + 1 → digitAt d r i ≠ 0) :
      Settled d r ⟨digits d r 0 p, digits d r p k⟩

theorem ofRemainder_settled (hr : r < d) : Settled d r (ofRemainder r d) := by
  have spec := divides hr
  rw [ofRemainder]
  generalize divide d d r ∅ 0 [] = answer at spec
  cases spec with
  | stops fresh h => exact .finite fresh h
  | @returns s n fresh hs h =>
    obtain ⟨k, rfl⟩ := Nat.exists_eq_add_of_le hs.le
    show Settled d r
      (settle ((digits d r 0 (s + k)).take s).reverse [] ((digits d r 0 (s + k)).drop s))
    rw [take_digits hs.le, drop_digits hs.le, Nat.add_sub_cancel_left]
    obtain ⟨j, hj, he, turned, hlast⟩ := settle_spec (d := d) (r := r) (s := s) (t := 0) (k := k)
      (fun i hi hlt => by omega) (exists_digit_ne_zero (by omega) (fresh.ne_zero s hs) h)
    have cycle : digits d r (s + j) (k - j) ++ digits d r s j = digits d r (s + j) k := by
      obtain ⟨l, rfl⟩ := Nat.exists_eq_add_of_le hj
      rw [digits_period h j, Nat.add_sub_cancel_left, ← Nat.add_assoc, digits_append, Nat.add_comm l]
    rw [Nat.add_zero, Nat.zero_add, cycle] at he
    exact he ▸ .periodic fresh (by omega) h (by omega) (by omega) turned hlast

theorem Settled.expands {e : Expansion} (h : Settled d r e) : Expands d r e := by
  cases h with
  | finite fresh h => exact .finite fresh.ne_zero h
  | @periodic s k p fresh hk h hs hp turned hlast =>
    have period : remainder d r p = remainder d r (p + k) := by
      obtain ⟨j, rfl⟩ := Nat.exists_eq_add_of_le hs
      rw [remainder_add h, Nat.add_right_comm]
    have nonzero : remainder d r p ≠ 0 := by
      rcases Nat.lt_or_eq_of_le hp with hlt | rfl
      · exact fresh.ne_zero p hlt
      · exact h ▸ fresh.ne_zero s (by omega)
    exact .periodic hk nonzero period hlast

theorem ofRemainder_expands (hr : r < d) : Expands d r (ofRemainder r d) :=
  (ofRemainder_settled hr).expands

end Expansion

end Reckon
