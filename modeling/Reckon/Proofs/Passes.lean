import Mathlib
import Reckon.Fraction.Passes
import Reckon.Proofs.Canonical

/-!
# The loops of the exact form end

A division that has gone through `n` passes has met `n` remainders, different from each other and
from zero (`Reached`), so `n` is smaller than the denominator. A remainder is smaller as well, hence
a pass that goes on writes one digit (`Reached.pass_cases`).

A block that a division finds has a digit other than `0`, or its remainder would have grown instead
of returning. A turn keeps the number that the digits denote (`magnitude_pass`). `Expansion.settle`
turns a block in the same way and stops where it was turned once around (`exists_after_settle`); by
then the digits before it end in another digit than `0`. So both loops end, and what they write is
the exact form (`exact_loops_end`).
-/

namespace Reckon

open Notation Expansion NumberParts

/-! ### Passes -/

section
variable {σ : Type} {pass : σ → Option σ} {s t u : σ} {m n N : ℕ}

theorem passes_succ_eq_some_iff : passes pass (n + 1) s = some u ↔
    ∃ t, passes pass n s = some t ∧ pass t = some u :=
  Option.bind_eq_some_iff

/-- The first pass comes before the others. -/
theorem passes_succ_of_pass (h : pass s = some t) (n : ℕ) :
    passes pass (n + 1) s = passes pass n t := by
  induction n with
  | zero => exact h
  | succ n ih => rw [passes, ih, passes]

theorem exists_passes_of_le (h : passes pass n s = some t) (hm : m ≤ n) :
    ∃ u, passes pass m s = some u := by
  induction n, hm using Nat.le_induction generalizing t with
  | base => exact ⟨t, h⟩
  | succ n _ ih =>
    obtain ⟨u, hu, -⟩ := passes_succ_eq_some_iff.mp h
    exact ih hu

/-- A loop with a bound on its passes comes to an end. -/
theorem exists_last_pass (bound : ∀ n t, passes pass n s = some t → n < N) :
    ∃ n t, passes pass n s = some t ∧ pass t = none := by
  by_contra! h
  have going (n : ℕ) : ∃ t, passes pass n s = some t := by
    induction n with
    | zero => exact ⟨s, rfl⟩
    | succ n ih =>
      obtain ⟨t, ht⟩ := ih
      obtain ⟨u, hu⟩ := Option.ne_none_iff_exists'.mp (h n t ht)
      exact ⟨u, passes_succ_eq_some_iff.mpr ⟨t, ht, hu⟩⟩
  obtain ⟨t, ht⟩ := going N
  exact absurd (bound N t ht) (Nat.lt_irrefl N)

/-- No pass comes behind the last one. -/
theorem le_of_last_pass (hn : passes pass n s = some t) (last : pass t = none)
    (hm : passes pass m s = some u) : m ≤ n := by
  refine not_lt.mp fun hlt => ?_
  obtain ⟨v, hv⟩ := exists_passes_of_le hm hlt
  rw [passes, hn, Option.bind_some, last] at hv
  cases hv

end

/-! ### Turning -/

namespace Turning

variable {s t : Turning} {j : ℕ}

theorem pass_eq_some (h : s.pass = some t) : s.plain.getLast? = some '0' ∧
    ∃ c cycle, s.cycle = c :: cycle ∧ t = ⟨s.plain ++ [c], cycle ++ [c]⟩ := by
  rw [pass] at h
  split at h
  · next h0 =>
    split at h
    · cases h
    · next c cycle hc => exact ⟨h0, c, cycle, hc, (Option.some.inj h).symm⟩
  · cases h

/-- The loop comes by what `settle` answers, within as many turns as the block has digits. -/
theorem exists_after_settle (plain turned cycle : List ℕ) :
    ∃ j ≤ cycle.length, after ⟨plain.reverse.map Nat.digitChar,
        (cycle ++ turned.reverse).map Nat.digitChar⟩ j =
      some ⟨(settle plain turned cycle).plainChars, (settle plain turned cycle).cycleChars⟩ := by
  -- on the digits that are not turned yet, of which each turn takes the first
  induction cycle generalizing plain turned with
  | nil =>
    rw [settle_nil]
    exact ⟨0, le_rfl, rfl⟩
  | cons c cycle ih =>
    by_cases h0 : plain.head? = some 0
    · obtain ⟨plain, rfl⟩ := List.head?_eq_some_iff.mp h0
      obtain ⟨j, hj, he⟩ := ih (c :: 0 :: plain) (c :: turned)
      refine ⟨j + 1, Nat.succ_le_succ hj, ?_⟩
      rw [settle_turn, ← he, after]
      refine passes_succ_of_pass ?_ j
      simp [pass]
    · refine ⟨0, Nat.zero_le _, ?_⟩
      rw [settle_stop h0]
      rfl

theorem cycle_after (h : s.after j = some t) : t.cycle = s.cycle.rotate j := by
  induction j generalizing t with
  | zero => rw [← Option.some.inj h, List.rotate_zero]
  | succ j ih =>
    obtain ⟨u, hu, hpass⟩ := passes_succ_eq_some_iff.mp h
    obtain ⟨-, c, cycle, hc, rfl⟩ := pass_eq_some hpass
    rw [← List.rotate_rotate, ← ih hu, hc, List.rotate_cons_succ, List.rotate_zero]

/-- A turn writes one more digit of the same number. -/
theorem magnitude_pass (h : s.pass = some t) :
    Literal.magnitude [] t.plain t.cycle = Literal.magnitude [] s.plain s.cycle := by
  obtain ⟨-, c, cycle, hc, rfl⟩ := pass_eq_some h
  have front : digitsValue (s.plain ++ [c]) = 10 * digitsValue s.plain + digitsValue [c] :=
    digitsValue_append _ _
  have whole : digitsValue (s.plain ++ [c] ++ (cycle ++ [c])) =
      10 * digitsValue (s.plain ++ c :: cycle) + digitsValue [c] := by
    rw [List.append_assoc, List.singleton_append, ← List.cons_append, ← List.append_assoc,
      digitsValue_append, List.length_singleton, pow_one]
  have length : (cycle ++ [c]).length = (c :: cycle).length := by simp
  rw [hc, Fraction.magnitude_periodic (List.cons_ne_nil c cycle),
    Fraction.magnitude_periodic (List.concat_ne_nil c cycle), List.nil_append, List.nil_append,
    front, whole, length, List.length_append, List.length_singleton]
  generalize digitsValue (s.plain ++ c :: cycle) = b
  generalize digitsValue s.plain = a
  generalize s.plain.length = n
  generalize (c :: cycle).length = k
  push_cast
  -- the new digit cancels, and both differences become ten times as large
  calc
    (10 * b + digitsValue [c] - (10 * a + digitsValue [c]) : ℚ) /
        (10 ^ (n + 1 + k) - 10 ^ (n + 1))
    _ = 10 * (b - a) / (10 * (10 ^ (n + k) - 10 ^ n)) := by ring_nf
    _ = (b - a) / (10 ^ (n + k) - 10 ^ n) := mul_div_mul_left _ _ (by norm_num)

theorem magnitude_after (h : s.after j = some t) :
    Literal.magnitude [] t.plain t.cycle = Literal.magnitude [] s.plain s.cycle := by
  induction j generalizing t with
  | zero => rw [Option.some.inj h]
  | succ j ih =>
    obtain ⟨u, hu, hpass⟩ := passes_succ_eq_some_iff.mp h
    rw [magnitude_pass hpass, ih hu]

end Turning

/-! ### Dividing -/

namespace Division

variable {d r n : ℕ} {s : Division} {b : Turning}

theorem pass_eq_none_iff : s.pass d = none ↔ s.rest = 0 ∨ s.rest ∈ s.seen := by
  rw [Std.TreeMap.mem_iff_isSome_getElem?, pass]
  split
  · next h => simp [h]
  · next h => cases s.seen[s.rest]? <;> simp [h]

theorem pass_of_new (h0 : s.rest ≠ 0) (hnew : s.rest ∉ s.seen) :
    s.pass d = some ⟨10 * s.rest % d, s.seen.insert s.rest s.digits.length,
      s.digits ++ decimalChars (10 * s.rest / d)⟩ := by
  rw [pass, if_neg h0, Std.TreeMap.getElem?_eq_none hnew]

/-- What a division of `r` by `d` has come to after `n` passes. -/
structure Reached (d r n : ℕ) (s : Division) : Prop where
  rest : s.rest = remainder d r n
  seen : Seen d r n s.seen
  digits : s.digits = (Expansion.digits d r 0 n).map Nat.digitChar
  fresh : Fresh d r n

theorem Reached.length_digits (h : Reached d r n s) : s.digits.length = n := by
  rw [h.digits, List.length_map, Expansion.length_digits]

/-- A pass that goes on records a new remainder and writes one digit. -/
theorem Reached.exists_pass (hr : r < d) (h : Reached d r n s) (h0 : s.rest ≠ 0)
    (hnew : s.rest ∉ s.seen) :
    ∃ t, s.pass d = some t ∧ Reached d r (n + 1) t ∧ t.seen = s.seen.insert s.rest n ∧
      t.digits = s.digits ++ [(digitAt d r n).digitChar] := by
  -- the quotient of a remainder below `d` is below ten
  have digit : decimalChars (10 * s.rest / d) = [(digitAt d r n).digitChar] := by
    rw [h.rest]
    exact decimalChars_digit (digitAt_lt hr n)
  have new : s.seen[remainder d r n]? = none := h.rest ▸ Std.TreeMap.getElem?_eq_none hnew
  refine ⟨_, pass_of_new h0 hnew, ⟨?_, ?_, ?_, ?_⟩, ?_, ?_⟩
  · show 10 * s.rest % d = _
    rw [h.rest, remainder]
  · rw [h.length_digits, h.rest]
    exact h.seen.insert new
  · rw [digit, h.digits, digits_succ, Nat.zero_add, List.map_append, List.map_singleton]
  · exact h.fresh.succ (h.rest ▸ h0) (h.seen.new new)
  · rw [h.length_digits]
  · rw [digit]

theorem Reached.pass_cases (hr : r < d) (h : Reached d r n s) :
    s.rest = 0 ∧ s.pass d = none ∨ s.rest ≠ 0 ∧ s.rest ∈ s.seen ∧ s.pass d = none ∨
      s.rest ≠ 0 ∧ s.rest ∉ s.seen ∧ ∃ t c, s.pass d = some t ∧ Reached d r (n + 1) t ∧
        t.seen = s.seen.insert s.rest n ∧ t.digits = s.digits ++ [c] ∧ isDigit c := by
  by_cases h0 : s.rest = 0
  · exact .inl ⟨h0, pass_eq_none_iff.mpr (.inl h0)⟩
  by_cases hs : s.rest ∈ s.seen
  · exact .inr (.inl ⟨h0, hs, pass_eq_none_iff.mpr (.inr hs)⟩)
  · obtain ⟨t, ht, reached, seen, digits⟩ := h.exists_pass hr h0 hs
    exact .inr (.inr ⟨h0, hs, t, _, ht, reached, seen, digits,
      isDigit_digitChar (digitAt_lt hr n)⟩)

theorem Reached.of_passes (hr : r < d) (h : passes (Division.pass d) n ⟨r, ∅, []⟩ = some s) :
    Reached d r n s := by
  induction n generalizing s with
  | zero =>
    obtain rfl := Option.some.inj h
    exact ⟨rfl, fun k i => by simp, rfl, .zero⟩
  | succ n ih =>
    obtain ⟨t, ht, hpass⟩ := passes_succ_eq_some_iff.mp h
    rcases (ih ht).pass_cases hr with ⟨-, last⟩ | ⟨-, -, last⟩ | ⟨-, -, u, c, hu, reached, -⟩
    · cases last.symm.trans hpass
    · cases last.symm.trans hpass
    · exact Option.some.inj (hu.symm.trans hpass) ▸ reached

/-- A division with nothing left has all digits. -/
theorem Reached.ofRemainder_zero (hr : r < d) (h : Reached d r n s) (h0 : s.rest = 0) :
    ofRemainder r d = ⟨Expansion.digits d r 0 n, []⟩ := by
  rw [ofRemainder, (divides hr).unique (.stops h.fresh (h.rest ▸ h0))]

/-- A block starts where its remainder was met before. -/
theorem Reached.exists_block (h : Reached d r n s) (hb : s.block = some b) :
    ∃ i k, n = i + k ∧ 0 < k ∧ remainder d r i = remainder d r (i + k) ∧
      b = ⟨(Expansion.digits d r 0 i).map Nat.digitChar,
        (Expansion.digits d r i k).map Nat.digitChar⟩ := by
  obtain ⟨i, hi, rfl⟩ := Option.map_eq_some_iff.mp hb
  obtain ⟨hlt, he⟩ := (h.seen _ _).mp hi
  obtain ⟨k, rfl⟩ := Nat.exists_eq_add_of_le hlt.le
  refine ⟨i, k, rfl, by omega, he.trans h.rest, ?_⟩
  rw [h.digits, ← List.map_take, ← List.map_drop, take_digits hlt.le, drop_digits hlt.le,
    Nat.add_sub_cancel_left]

theorem Reached.exists_nonZero (hr : r < d) (h : Reached d r n s) (hb : s.block = some b) :
    ∃ c ∈ b.cycle, isNonZero c := by
  obtain ⟨i, k, rfl, hk, he, rfl⟩ := h.exists_block hb
  obtain ⟨m, hm, hmk, hne⟩ := exists_digit_ne_zero hk (h.fresh.ne_zero i (by omega)) he
  exact ⟨_, List.mem_map_of_mem (List.mem_map_of_mem (List.mem_range'_1.mpr ⟨hm, hmk⟩)),
    isNonZero_digitChar (digitAt_lt hr m) hne⟩

/-- Turning a block that a division has found comes to the expansion, after one turn of the whole
block at the most. -/
theorem Reached.exists_turned (hr : r < d) (h : Reached d r n s) (hb : s.block = some b) :
    ∃ j ≤ b.cycle.length,
      b.after j = some ⟨(ofRemainder r d).plainChars, (ofRemainder r d).cycleChars⟩ := by
  obtain ⟨i, k, rfl, hk, he, rfl⟩ := h.exists_block hb
  have hle : i ≤ i + k := Nat.le_add_right i k
  have settled : ofRemainder r d =
      settle (Expansion.digits d r 0 i).reverse [] (Expansion.digits d r i k) := by
    rw [ofRemainder, (divides hr).unique (.returns h.fresh (Nat.lt_add_of_pos_right hk) he)]
    show settle ((Expansion.digits d r 0 (i + k)).take i).reverse []
      ((Expansion.digits d r 0 (i + k)).drop i) = _
    rw [take_digits hle, drop_digits hle, Nat.add_sub_cancel_left]
  obtain ⟨j, hj, hafter⟩ := Turning.exists_after_settle (Expansion.digits d r 0 i).reverse []
    (Expansion.digits d r i k)
  rw [List.reverse_reverse, List.reverse_nil, List.append_nil, ← settled] at hafter
  exact ⟨j, hj.trans_eq (List.length_map _).symm, hafter⟩

end Division

/-! ### Writing -/

namespace Fraction

variable {x : Fraction} {n : ℕ} {s : Division}

theorem exact_eq (x : Fraction) : x.exact.toList = signChars x.reduce.isNegative ++ x.wholeChars ++
    fractionText x.expansion.plainChars x.expansion.cycleChars := by
  rw [exact, String.toList_ofList, exactChars, fractionChars_eq]
  rfl

theorem magnitude_expansion (x : Fraction) :
    Literal.magnitude [] x.expansion.plainChars x.expansion.cycleChars = Int.fract |x.toRat| := by
  rw [x.expansion_expands.magnitude (Nat.mod_lt _ x.reduce.den_pos), abs_toRat,
    Int.fract_div_natCast_eq_div_natCast_mod]

/-- The digits before a block do not end in `0`. -/
theorem getLast?_plainChars (x : Fraction) : x.expansion.plainChars.getLast? ≠ some '0' := by
  by_cases hp : x.expansion.plain = []
  · rw [Expansion.plainChars, hp, List.map_nil, List.getLast?_nil]
    exact (Option.some_ne_none '0').symm
  · obtain ⟨ds, c, he, -, hc⟩ :=
      x.expansion_expands.plainChars (Nat.mod_lt _ x.reduce.den_pos) hp
    rw [he, List.getLast?_concat]
    intro h
    rw [Option.some.inj h] at hc
    exact absurd hc (by decide)

theorem reached_after (h : Division.after x n = some s) :
    s.Reached x.reduce.den (x.reduce.num.natAbs % x.reduce.den) n :=
  .of_passes (Nat.mod_lt _ x.reduce.den_pos) h

/-- Recorded are the remainders of the passes so far, each with the number of passes before it. -/
theorem seen_after (h : Division.after x n = some s) (k i : ℕ) :
    s.seen[k]? = some i ↔ i < n ∧ (Division.after x i).map Division.rest = some k := by
  rw [(reached_after h).seen k i]
  refine and_congr_right fun hi => ?_
  obtain ⟨t, ht⟩ := exists_passes_of_le h hi.le
  rw [show Division.after x i = some t from ht, Option.map_some, Option.some_inj,
    (reached_after ht).rest]

/-- A division that ends without a block has written the digits of the exact form. -/
theorem exact_of_last_pass (h : Division.after x n = some s) (last : s.pass x.reduce.den = none)
    (noBlock : s.block = none) : x.exact.toList =
      signChars x.reduce.isNegative ++ x.wholeChars ++ fractionText s.digits [] := by
  have new : s.rest ∉ s.seen := fun hs => by
    rw [Std.TreeMap.mem_iff_isSome_getElem?, Option.map_eq_none_iff.mp noBlock] at hs
    cases hs
  have reached := reached_after h
  have expansion : x.expansion = _ := reached.ofRemainder_zero (Nat.mod_lt _ x.reduce.den_pos)
    ((Division.pass_eq_none_iff.mp last).resolve_right new)
  rw [exact_eq, expansion, reached.digits]
  rfl

/-- Both loops that write the exact form end, for every fraction. All along the division what is left
stays below the denominator, and so does the number of passes. A pass finds nothing left, or a
remainder that was recorded by an earlier pass, or it records a new one and writes one digit.

A block that the division finds has a digit other than `0`. It is turned until the digits before it
do not end in `0`, which takes one turn of the whole block at the most. After every turn the digits
denote what the number has behind the point. What the loops come to is the exact form. -/
theorem exact_loops_end (x : Fraction) :
    (∀ n s, Division.after x n = some s →
      s.rest < x.reduce.den ∧ n < x.reduce.den ∧
      (∀ k i, s.seen[k]? = some i ↔ i < n ∧ (Division.after x i).map Division.rest = some k) ∧
      (s.rest = 0 ∧ s.pass x.reduce.den = none ∨
        s.rest ≠ 0 ∧ s.rest ∈ s.seen ∧ s.pass x.reduce.den = none ∨
        s.rest ≠ 0 ∧ s.rest ∉ s.seen ∧ ∃ t c, s.pass x.reduce.den = some t ∧
          t.seen = s.seen.insert s.rest n ∧ t.digits = s.digits ++ [c] ∧ isDigit c)) ∧
    (∃ n s, Division.after x n = some s ∧ s.pass x.reduce.den = none ∧
      (s.block = none → x.exact.toList =
        signChars x.reduce.isNegative ++ x.wholeChars ++ fractionText s.digits [])) ∧
    ∀ n s b, Division.after x n = some s → s.block = some b →
      (∃ c ∈ b.cycle, isNonZero c) ∧
      (∀ j t, b.after j = some t → j ≤ b.cycle.length ∧ t.cycle = b.cycle.rotate j ∧
        Literal.magnitude [] t.plain t.cycle = Int.fract |x.toRat|) ∧
      ∃ j t, b.after j = some t ∧ t.pass = none ∧ t.plain.getLast? ≠ some '0' ∧
        x.exact.toList =
          signChars x.reduce.isNegative ++ x.wholeChars ++ fractionText t.plain t.cycle := by
  have hr : x.reduce.num.natAbs % x.reduce.den < x.reduce.den := Nat.mod_lt _ x.reduce.den_pos
  refine ⟨fun n s h => ?_, ?_, fun n s b h hb => ?_⟩
  · have reached := reached_after h
    refine ⟨reached.rest ▸ remainder_lt hr n, reached.fresh.lt hr, seen_after h, ?_⟩
    rcases reached.pass_cases hr with zero | met | ⟨h0, new, t, c, ht, -, seen, digits, hc⟩
    exacts [.inl zero, .inr (.inl met), .inr (.inr ⟨h0, new, t, c, ht, seen, digits, hc⟩)]
  · obtain ⟨n, s, h, last⟩ := exists_last_pass fun n s h => (reached_after h).fresh.lt hr
    exact ⟨n, s, h, last, exact_of_last_pass h last⟩
  · have reached := reached_after h
    obtain ⟨m, hm, turned⟩ := reached.exists_turned hr hb
    have last : (Turning.mk x.expansion.plainChars x.expansion.cycleChars).pass = none :=
      if_neg x.getLast?_plainChars
    refine ⟨reached.exists_nonZero hr hb, fun j t ht => ⟨?_, Turning.cycle_after ht, ?_⟩,
      m, _, turned, last, x.getLast?_plainChars, x.exact_eq⟩
    · exact (le_of_last_pass turned last ht).trans hm
    · rw [Turning.magnitude_after ht, ← Turning.magnitude_after turned]
      exact x.magnitude_expansion

/-- `0.001{01}R`: the block of `1/990` is turned once around. -/
theorem exact_loops_end_full_turn :
    ∃ s, Division.after ⟨1, 990, by decide⟩ 3 = some s ∧ s.block = some ⟨['0'], ['0', '1']⟩ ∧
      (Turning.mk ['0'] ['0', '1']).after 2 = some ⟨['0', '0', '1'], ['0', '1']⟩ ∧
      Literal.magnitude [] ['0', '0', '1'] ['0', '1'] = Int.fract |toRat ⟨1, 990, by decide⟩| := by
  obtain ⟨s, hs, hb⟩ : ∃ s, Division.after ⟨1, 990, by decide⟩ 3 = some s ∧
      s.block = some ⟨['0'], ['0', '1']⟩ := ⟨_, rfl, rfl⟩
  have turned : (Turning.mk ['0'] ['0', '1']).after 2 = some ⟨['0', '0', '1'], ['0', '1']⟩ := by
    decide
  obtain ⟨-, -, block⟩ := exact_loops_end ⟨1, 990, by decide⟩
  obtain ⟨-, turns, -⟩ := block 3 s _ hs hb
  exact ⟨s, hs, hb, turned, (turns 2 _ turned).2.2⟩

end Fraction

end Reckon
