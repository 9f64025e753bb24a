import Mathlib
import Reckon.Proofs.Greedy
import Reckon.Proofs.Numeral

/-!
# Numbers are matched as far as they go

The parts of a number are greedy one by one. A form with an exponent has an `E`, the others have
none; a decimal has a point, an integer has none: so the order in which the forms are tried is that
of their lengths (`greedy_pattern`). This is said of texts without a brace, where the forms with a
repeating block do not match.
-/

namespace Reckon.Numeral

open Pattern Notation

variable {p : Pattern} {L : List Char → Prop} {Q : Char → Prop} {c : Cursor}

theorem Plain.avoids (h : Plain p L) (hL : ∀ w, L w → ∀ x ∈ w, ¬ Q x) : p.Avoids Q :=
  fun w pos ms hw => hL w ((h w pos ms).mp hw).1

theorem Plain.starts (h : Plain p L) (hL : ∀ w, L w → ∃ x t, w = x :: t ∧ Q x) : p.Starts Q :=
  fun w pos ms hw => hL w ((h w pos ms).mp hw).1

theorem plain_char (a : Char) : Plain (char a) fun w => w = [a] := fun _ _ _ => reads_char

theorem plain_nonZero : Plain nonZero fun w => ∃ c, w = [c] ∧ isNonZero c := fun _ _ _ => reads_nonZero

theorem starts_char (a : Char) : (char a).Starts (· = a) :=
  (plain_char a).starts fun _ h => ⟨a, [], h, rfl⟩

theorem avoids_char {a : Char} (h : ¬ Q a) : (char a).Avoids Q :=
  (plain_char a).avoids fun _ hw x hx => by
    rw [hw] at hx
    exact List.mem_singleton.mp hx ▸ h

/-! ### Signs and runs of digits -/

theorem starts_nonZero : nonZero.Starts fun x => isNonZero x :=
  plain_nonZero.starts fun _ ⟨x, hw, hx⟩ => ⟨x, [], hw, hx⟩

theorem starts_positive : positive.Starts fun x => isNonZero x := starts_nonZero.cat

theorem starts_unsigned : (alt positive (char '0')).Starts fun x => isDigit x :=
  (starts_positive.mono fun _ => isDigit_of_isNonZero).alt
    ((starts_char '0').mono fun _ h => h ▸ rfl)

theorem greedy_positive (c : Cursor) : positive.Greedy c := greedy_set_cat fun d => greedy_star_set _ d

theorem greedy_unsigned (c : Cursor) : (alt positive (char '0')).Greedy c :=
  greedy_alt_starts rfl rfl (greedy_positive c) (greedy_set _ c) starts_positive
    ((starts_char '0').mono fun _ h => h ▸ by decide)

theorem greedy_signed (hf : p.free) (hp : ∀ d, p.Greedy d) (hs : p.Starts fun x => isDigit x)
    (c : Cursor) : (signed p).Greedy c := by
  refine greedy_cat rfl hf (greedy_opt (greedy_set _ c) rfl (starts_char '-')) (fun d _ => hp d) ?_ hs
  exact (avoids_char (by decide)).opt

theorem greedy_integer (c : Cursor) : integer.Greedy c := by
  have digits : positive.Starts fun x => isDigit x :=
    starts_positive.mono fun _ => isDigit_of_isNonZero
  have first : (signed positive).Starts (· ≠ '0') :=
    ((starts_char '-').mono fun _ h => h ▸ by decide).opt_cat
      (starts_positive.mono fun x hx h => by rw [h] at hx; exact absurd hx (by decide))
  exact greedy_alt_starts rfl rfl (greedy_signed rfl greedy_positive digits c) (greedy_set _ c) first
    ((starts_char '0').mono fun _ h => not_not.mpr h)

theorem greedy_wholePart (c : Cursor) : wholePart.Greedy c :=
  greedy_signed rfl greedy_unsigned starts_unsigned c

theorem greedy_mantissa (c : Cursor) : mantissa.Greedy c :=
  greedy_signed rfl (greedy_set _) (starts_nonZero.mono fun _ => isDigit_of_isNonZero) c

theorem greedy_fraction (c : Cursor) : fraction.Greedy c := greedy_cat_set (greedy_star_set _ c)

/-! ### Forms -/

/-- No sign and no digit is of `Q`. -/
def Foreign (Q : Char → Prop) : Prop := ∀ x, isSigned x → ¬ Q x

theorem foreign_eq {a : Char} (h : isSigned a = false) : Foreign (· = a) := by
  rintro x hx rfl
  rw [h] at hx
  cases hx

theorem avoids_integer (h : Foreign Q) : integer.Avoids Q :=
  plain_integer.avoids fun _ hw x hx => h x (hw.isSigned x hx)

theorem avoids_wholePart (h : Foreign Q) : wholePart.Avoids Q :=
  plain_wholePart.avoids fun _ hw x hx => h x (WholePart.isSigned hw x hx)

theorem avoids_mantissa (h : Foreign Q) : mantissa.Avoids Q :=
  plain_mantissa.avoids fun _ hw x hx => h x (Mantissa.isSigned hw x hx)

theorem avoids_fraction (h : Foreign Q) : fraction.Avoids Q :=
  plain_fraction.avoids fun _ hw x hx => h x (isSigned_of_isDigit (hw.digits x hx))

theorem greedy_decimal (n : Nat) (c : Cursor) : (decimal n).Greedy c := by
  refine greedy_cat rfl rfl (greedy_group (greedy_wholePart _)) (fun d _ => ?_)
    (avoids_wholePart (foreign_eq (a := '.') rfl)).group (starts_char '.').cat
  exact greedy_set_cat fun e => greedy_group (greedy_fraction _)

theorem greedy_scientific (n : Nat) (c : Cursor) : (scientific n).Greedy c := by
  have point : (group (n + 8) (cat (char '.') (group (n + 9) fraction))).Starts (· = '.') :=
    (starts_char '.').cat.group
  have exponent : (cat (char 'E') (group (n + 10) integer)).Starts (· = 'E') := (starts_char 'E').cat
  have optional (d : Cursor) :
      (opt (group (n + 8) (cat (char '.') (group (n + 9) fraction)))).Greedy d :=
    greedy_opt (greedy_group (greedy_set_cat fun e => greedy_group (greedy_fraction _))) rfl point
  refine greedy_cat (Q := fun x => x = '.' ∨ x = 'E') rfl rfl (greedy_group (greedy_mantissa _))
    (fun d _ => ?_) (avoids_mantissa ?_).group
    ((point.mono fun _ => .inl).opt_cat (exponent.mono fun _ => .inr))
  · refine greedy_cat rfl rfl (optional d) (fun e _ => ?_) (Q := (· = 'E')) ?_ exponent
    · exact greedy_set_cat fun f => greedy_group (greedy_integer _)
    · exact ((avoids_char (by decide)).cat (avoids_fraction (foreign_eq rfl)).group).group.opt
  · rintro x hx (rfl | rfl) <;> exact absurd hx (by decide)

theorem greedy_integerNumber (n : Nat) (c : Cursor) :
    (group (n + 18) (group (n + 19) integer)).Greedy c :=
  greedy_group (greedy_group (greedy_integer _))

theorem has_suffix (i j : Nat) : (suffix i j).Has '\x7b' :=
  Has.right (starts_char '\x7b').has.left

theorem greedy_pattern (n : Nat) (hc : '\x7b' ∉ c.rest) : (pattern n).Greedy c := by
  have first : (group (n + 1) (repeatingScientific n)).outcomes c = [] :=
    outcomes_eq_nil rfl (has_suffix _ _).left.right.right.group hc
  have third : (group (n + 11) (repeatingDecimal n)).outcomes c = [] :=
    outcomes_eq_nil rfl (has_suffix _ _).right.right.group hc
  -- without a brace three of the five forms are left
  have three : (pattern n).outcomes c = (alt (group (n + 6) (scientific n))
      (alt (group (n + 15) (decimal n)) (group (n + 18) (group (n + 19) integer)))).outcomes c := by
    rw [pattern, outcomes, first, List.nil_append, outcomes, outcomes, third, List.nil_append]
    rfl
  have hasE : (group (n + 6) (scientific n)).Has 'E' :=
    Has.group (Has.right (Has.right (starts_char 'E').has.left))
  have noE : (alt (group (n + 15) (decimal n)) (group (n + 18) (group (n + 19) integer))).Avoids
      (· = 'E') := by
    refine (Avoids.cat ?_ (Avoids.cat (avoids_char (by decide)) ?_)).group.alt ?_
    · exact (avoids_wholePart (foreign_eq rfl)).group
    · exact (avoids_fraction (foreign_eq rfl)).group
    · exact (avoids_integer (foreign_eq rfl)).group.group
  have hasPoint : (group (n + 15) (decimal n)).Has '.' :=
    Has.group (Has.right (starts_char '.').has.left)
  rw [Greedy, three]
  refine greedy_alt_mem rfl rfl (greedy_group (greedy_scientific n _)) ?_ hasE noE
  exact greedy_alt_mem rfl rfl (greedy_group (greedy_decimal n _)) (greedy_integerNumber n _)
    hasPoint (avoids_integer (foreign_eq rfl)).group.group

end Reckon.Numeral
