import Mathlib
import Reckon.Proofs.Arithmetic
import Reckon.Proofs.LiteralValue

/-!
# Which parts have a value

The parts of a literal are glued together before they are read, and the reader of integers skips
underscores. `Literal.WellFormed` is what each part has to be on its own, `Literal.Admitted` what the
glued parts have to be for a value. The first is more: a sign or digits can come from the next part
(`5` after no integer part, or after a sign alone), and underscores count as places but not as digits.
Where the integer part has a digit of its own and no part has an underscore, both agree up to the size
of the powers of ten (`Literal.Admitted.wellFormed`).
-/

namespace Reckon

open Notation

namespace Literal

def Sign (w : List Char) : Prop := w = [] ∨ w = ['+'] ∨ w = ['-']

/-- A whole number in digits, after at most one sign. -/
def SignedDigits (w : List Char) : Prop := ∃ s ds, w = s ++ ds ∧ Sign s ∧ Digits ds ∧ ds ≠ []

/-- A digit, after at most one sign, and then digits and underscores. -/
def Spaced (w : List Char) : Prop :=
  ∃ s c ds, w = s ++ c :: ds ∧ Sign s ∧ isDigit c ∧ ∀ d ∈ ds, isDigit d ∨ d = '_'

/-- Each part is what it should be. -/
structure WellFormed (integer plain repeating : List Char) (exponent : Option (List Char)) : Prop where
  integer_signed : SignedDigits integer
  plain_digits : Digits plain
  repeating_digits : Digits repeating
  exponent_signed : ∀ w, exponent = some w → SignedDigits w

/-- The glued parts can be read, and no power of ten is too large. -/
structure Admitted (integer plain repeating : List Char) (exponent : Option (List Char)) : Prop where
  head : Spaced (integer ++ plain)
  block : ∀ c ∈ repeating, isDigit c ∨ c = '_'
  places : plain.length + repeating.length ≤ maxLiteralExponent
  power : ∀ w, exponent = some w → ∃ e, Exponent w e ∧ |e| ≤ maxLiteralExponent

variable {w s integer plain repeating : List Char} {exponent : Option (List Char)} {e : ℤ}

theorem Sign.not_isDigit (h : Sign s) : ∀ c ∈ s, ¬ isDigit c := by
  rcases h with rfl | rfl | rfl <;> simp [isDigit]

theorem Exponent.signedDigits (h : Exponent w e) : SignedDigits w := by
  cases h with
  | unsigned h hne => exact ⟨[], w, rfl, .inl rfl, h, hne⟩
  | plus h hne => exact ⟨['+'], _, rfl, .inr (.inl rfl), h, hne⟩
  | minus h hne => exact ⟨['-'], _, rfl, .inr (.inr rfl), h, hne⟩

/-- What goes on after a number is digits and underscores. -/
theorem Spaced.append_iff (h : Spaced w) (v : List Char) :
    Spaced (w ++ v) ↔ ∀ d ∈ v, isDigit d ∨ d = '_' := by
  obtain ⟨s, c, ds, rfl, hs, hc, hds⟩ := h
  constructor
  · rintro ⟨s', c', ds', heq, hs', hc', hds'⟩
    rw [List.append_assoc, List.cons_append] at heq
    obtain ⟨-, heq⟩ := append_unique hs.not_isDigit hs'.not_isDigit
      (fun d hd => by obtain rfl := Option.some.inj hd; exact not_not.mpr hc)
      (fun d hd => by obtain rfl := Option.some.inj hd; exact not_not.mpr hc') heq
    obtain ⟨-, rfl⟩ := List.cons.inj heq
    exact fun d hd => hds' d (List.mem_append_right ds hd)
  · intro hv
    refine ⟨s, c, ds ++ v, by simp, hs, hc, fun d hd => ?_⟩
    exact (List.mem_append.mp hd).elim (hds d) (hv d)

theorem Admitted.wellFormed (h : Admitted integer plain repeating exponent)
    (hdigit : ∃ c ∈ integer, isDigit c) (hspace : '_' ∉ integer ++ (plain ++ repeating)) :
    WellFormed integer plain repeating exponent := by
  simp only [List.mem_append, not_or] at hspace
  obtain ⟨hi, hp, hr⟩ := hspace
  have digits {v : List Char} (hv : ∀ d ∈ v, isDigit d ∨ d = '_') (hu : '_' ∉ v) : Digits v :=
    fun d hd => (hv d hd).resolve_right fun he => hu (he ▸ hd)
  obtain ⟨s, c, ds, heq, hs, hc, hds⟩ := h.head
  obtain ⟨x, hx, hxd⟩ := hdigit
  rcases List.append_eq_append_iff.mp heq with ⟨a, rfl, -⟩ | ⟨b, rfl, hb⟩
  · exact absurd hxd (hs.not_isDigit x (List.mem_append_left a hx))
  cases b with
  | nil =>
    rw [List.append_nil] at hx
    exact absurd hxd (hs.not_isDigit x hx)
  | cons c' b =>
    obtain ⟨rfl, rfl⟩ := List.cons.inj hb
    have hb : '_' ∉ b := fun hm => hi (List.mem_append_right s (List.mem_cons_of_mem c hm))
    have rest := digits (fun d hd => hds d (List.mem_append_left plain hd)) hb
    refine ⟨⟨s, c :: b, rfl, hs, ?_, List.cons_ne_nil c b⟩, ?_, digits h.block hr, ?_⟩
    · exact fun d hd => (List.mem_cons.mp hd).elim (fun he => he ▸ hc) (rest d)
    · exact digits (fun d hd => hds d (List.mem_append_right b hd)) hp
    · intro w hw
      obtain ⟨e, he, -⟩ := h.power w hw
      exact he.signedDigits

end Literal

/-! ### Readers -/

open Literal

section
variable {w : List Char} {e : ℤ}

theorem isSome_readNatural_iff : (readNatural w).isSome ↔
    ∃ c ds, w = c :: ds ∧ isDigit c ∧ ∀ d ∈ ds, isDigit d ∨ d = '_' := by
  cases w with
  | nil => simp [readNatural]
  | cons c ds =>
    rw [readNatural]
    split <;> simp_all

theorem isSome_readInteger_cons (c : Char) (cs : List Char) : (readInteger (c :: cs)).isSome =
    (readNatural (if c = '-' ∨ c = '+' then cs else c :: cs)).isSome := by
  rw [readInteger]
  by_cases hm : c = '-'
  · rw [if_pos hm, if_pos (.inl hm)]
    cases readNatural cs <;> rfl
  by_cases hp : c = '+'
  · rw [if_neg hm, if_pos hp, if_pos (.inr hp)]
    cases readNatural cs <;> rfl
  · rw [if_neg hm, if_neg hp, if_neg (not_or.mpr ⟨hm, hp⟩)]
    cases readNatural (c :: cs) <;> rfl

theorem isSome_readInteger_iff : (readInteger w).isSome ↔ Spaced w := by
  constructor
  · intro h
    rcases w with _ | ⟨c, w⟩
    · cases h
    rw [isSome_readInteger_cons, isSome_readNatural_iff] at h
    obtain ⟨d, ds, heq, hd⟩ := h
    split at heq
    · next hc =>
      refine ⟨[c], d, ds, by rw [heq]; rfl, .inr ?_, hd⟩
      rcases hc with rfl | rfl
      exacts [.inr rfl, .inl rfl]
    · exact ⟨[], d, ds, heq, .inl rfl, hd⟩
  · rintro ⟨s, c, ds, rfl, hs, hc, hds⟩
    have read : (readNatural (c :: ds)).isSome := isSome_readNatural_iff.mpr ⟨c, ds, rfl, hc, hds⟩
    rcases hs with rfl | rfl | rfl
    · have hsign : ¬ (c = '-' ∨ c = '+') := by
        rintro (rfl | rfl)
        exacts [absurd hc (by decide), absurd hc (by decide)]
      rw [List.nil_append, isSome_readInteger_cons, if_neg hsign, read]
    · rw [List.singleton_append, isSome_readInteger_cons, if_pos (.inr rfl), read]
    · rw [List.singleton_append, isSome_readInteger_cons, if_pos (.inl rfl), read]

theorem readDigits_eq_some {n : Nat} (h : readDigits w = some n) :
    Digits w ∧ w ≠ [] ∧ n = Nat.ofDigitChars 10 w 0 := by
  cases w with
  | nil => cases h
  | cons c cs =>
    rw [readDigits] at h
    split at h
    · next hall =>
      refine ⟨fun d hd => List.all_eq_true.mp hall d hd, List.cons_ne_nil c cs, ?_⟩
      rw [← Option.some.inj h, digitsValue_eq]
    · cases h

theorem exponent_of_readExponent (h : readExponent w = some e) : Exponent w e := by
  rcases w with _ | ⟨c, cs⟩
  · cases h
  rw [readExponent] at h
  by_cases hm : c = '-'
  · rw [if_pos hm] at h
    obtain ⟨n, hn, h⟩ := Option.bind_eq_some_iff.mp h
    obtain ⟨hds, hne, rfl⟩ := readDigits_eq_some hn
    obtain ⟨-, he⟩ := Option.ite_none_right_eq_some.mp h
    rw [← Option.some.inj he, hm]
    exact .minus hds hne
  · rw [if_neg hm] at h
    obtain ⟨n, hn, h⟩ := Option.bind_eq_some_iff.mp h
    obtain ⟨-, he⟩ := Option.ite_none_right_eq_some.mp h
    rw [← Option.some.inj he]
    by_cases hp : c = '+'
    · rw [if_pos hp] at hn
      obtain ⟨hds, hne, rfl⟩ := readDigits_eq_some hn
      exact hp ▸ .plus hds hne
    · rw [if_neg hp] at hn
      obtain ⟨hds, hne, rfl⟩ := readDigits_eq_some hn
      exact .unsigned hds hne

theorem exists_spelledInteger_iff : (∃ n, spelledInteger w = .ok n) ↔ Spaced w := by
  rw [← isSome_readInteger_iff, spelledInteger]
  cases readInteger w <;> simp

theorem spelledExponent_eq_ok (h : spelledExponent w = .ok e) : Exponent w e := by
  rw [spelledExponent] at h
  split at h
  · next hread => exact exponent_of_readExponent (hread.trans (congrArg some (Except.ok.inj h)))
  · cases h

end

/-! ### Parts -/

namespace Fraction

variable {integer plain repeating : List Char} {exponent : Option (List Char)}

theorem checkTenPower_eq_ok_iff {n : Nat} : checkTenPower n = .ok () ↔ n ≤ maxLiteralExponent := by
  rw [checkTenPower_eq]
  split <;> simp [*]

theorem exists_ofDigits_iff : (∃ x, ofDigits integer plain repeating = .ok x) ↔
    Spaced (integer ++ plain) ∧ (∀ c ∈ repeating, isDigit c ∨ c = '_') ∧
      plain.length + repeating.length ≤ maxLiteralExponent := by
  constructor
  · rintro ⟨x, h⟩
    obtain ⟨head, hhead, h⟩ := bind_eq_ok h
    have glued := exists_spelledInteger_iff.mp ⟨head, hhead⟩
    split at h
    · next hr =>
      obtain ⟨_, hc, -⟩ := bind_eq_ok h
      subst hr
      exact ⟨glued, List.forall_mem_nil _, checkTenPower_eq_ok_iff.mp hc⟩
    · obtain ⟨full, hfull, h⟩ := bind_eq_ok h
      obtain ⟨_, hc, -⟩ := bind_eq_ok h
      have more := exists_spelledInteger_iff.mp ⟨full, hfull⟩
      exact ⟨glued, (glued.append_iff repeating).mp more, checkTenPower_eq_ok_iff.mp hc⟩
  · rintro ⟨glued, block, places⟩
    obtain ⟨head, hhead⟩ := exists_spelledInteger_iff.mpr glued
    obtain ⟨full, hfull⟩ :=
      exists_spelledInteger_iff.mpr ((glued.append_iff repeating).mpr block)
    have hplain : checkTenPower plain.length = .ok () := checkTenPower_eq_ok_iff.mpr (by omega)
    rw [List.append_assoc] at hfull
    rw [ofDigits, hhead]
    by_cases hr : repeating = []
    · simp [bind, Except.bind, hr, hplain, pure, Except.pure]
    · simp [bind, Except.bind, hr, hfull, hplain, checkTenPower_eq_ok_iff.mpr places, pure, Except.pure]

/-- The parts that have a value. -/
theorem exists_ofParts_iff : (∃ x, ofParts integer plain repeating exponent = .ok x) ↔
    Admitted integer plain repeating exponent := by
  constructor
  · rintro ⟨x, h⟩
    obtain ⟨y, hy, h⟩ := bind_eq_ok h
    obtain ⟨glued, block, places⟩ := exists_ofDigits_iff.mp ⟨y, hy⟩
    refine ⟨glued, block, places, ?_⟩
    rintro w rfl
    obtain ⟨e, he, h⟩ := bind_eq_ok h
    obtain ⟨z, hz, -⟩ := bind_eq_ok h
    obtain ⟨z', -, hscale⟩ := exists_scale y e
    rw [hscale] at hz
    obtain ⟨_, hc, -⟩ := map_eq_ok hz
    have small := checkTenPower_eq_ok_iff.mp hc
    exact ⟨e, spelledExponent_eq_ok he, by rw [Int.abs_eq_natAbs]; exact_mod_cast small⟩
  · rintro ⟨glued, block, places, power⟩
    obtain ⟨y, hy⟩ := exists_ofDigits_iff.mpr ⟨glued, block, places⟩
    rw [ofParts, hy]
    cases exponent with
    | none => exact ⟨y.reduce, rfl⟩
    | some w =>
      obtain ⟨e, he, small⟩ := power w rfl
      obtain ⟨reason, hmoved⟩ := exists_moved y he
      rw [Int.abs_eq_natAbs] at small
      exact ⟨_, hmoved.trans (if_pos (by exact_mod_cast small))⟩

/-- Parts have a value exactly if they can be read when they are glued together. So malformed parts
have none if the integer part has a digit and no part an underscore. -/
theorem ofParts_rejects (integer plain repeating : List Char) (exponent : Option (List Char)) :
    ((∃ x, ofParts integer plain repeating exponent = .ok x) ↔
      Admitted integer plain repeating exponent) ∧
    (¬ WellFormed integer plain repeating exponent → (∃ c ∈ integer, isDigit c) →
      '_' ∉ integer ++ (plain ++ repeating) →
      ∃ reason, ofParts integer plain repeating exponent = .error (.domain reason)) := by
  refine ⟨exists_ofParts_iff, fun malformed hdigit hspace => ?_⟩
  rcases h : ofParts integer plain repeating exponent with fault | x
  · obtain ⟨reason, rfl⟩ := ofParts_error h
    exact ⟨reason, rfl⟩
  · exact absurd ((exists_ofParts_iff.mp ⟨x, h⟩).wellFormed hdigit hspace) malformed

/-- A sign in the fraction digits is rejected, and so is an exponent that is no number. -/
theorem ofParts_rejects_inner_sign :
    (¬ WellFormed ['1'] ['-', '5'] [] none ∧ (∃ c ∈ ['1'], isDigit c) ∧
      '_' ∉ ['1'] ++ (['-', '5'] ++ []) ∧
      ∃ reason, ofParts ['1'] ['-', '5'] [] none = .error (.domain reason)) ∧
    (¬ WellFormed ['1'] [] ['3'] (some ['E']) ∧
      ∃ reason, ofParts ['1'] [] ['3'] (some ['E']) = .error (.domain reason)) := by
  have sign : ¬ WellFormed ['1'] ['-', '5'] [] none := fun h =>
    absurd (h.plain_digits '-' (List.mem_cons_self ..)) (by decide)
  have exponent : ¬ WellFormed ['1'] [] ['3'] (some ['E']) := by
    intro h
    obtain ⟨s, ds, heq, hs, hds, -⟩ := h.exponent_signed _ rfl
    rcases hs with rfl | rfl | rfl
    · obtain rfl : ['E'] = ds := heq
      exact absurd (hds 'E' (List.mem_cons_self ..)) (by decide)
    · exact absurd (List.cons.inj heq).1 (by decide)
    · exact absurd (List.cons.inj heq).1 (by decide)
  have digit : ∃ c ∈ ['1'], isDigit c := ⟨'1', List.mem_cons_self .., by decide⟩
  exact ⟨⟨sign, digit, by decide, (ofParts_rejects ['1'] ['-', '5'] [] none).2 sign digit (by decide)⟩,
    exponent, (ofParts_rejects ['1'] [] ['3'] (some ['E'])).2 exponent digit (by decide)⟩

/-- Malformed parts that have a value: no integer part, and underscores among the digits behind the
point. -/
theorem ofParts_glued :
    (¬ WellFormed [] ['5'] [] none ∧ ofParts [] ['5'] [] none = .ok ⟨1, 2, by decide⟩) ∧
    (¬ WellFormed ['1'] ['_', '5'] [] none ∧
      ofParts ['1'] ['_', '5'] [] none = .ok ⟨3, 20, by decide⟩) ∧
    (¬ WellFormed ['1'] [] ['_', '5'] none ∧
      ofParts ['1'] [] ['_', '5'] none = .ok ⟨14, 99, by decide⟩) := by
  refine ⟨⟨fun h => ?_, by decide⟩, ⟨fun h => ?_, by decide⟩, ⟨fun h => ?_, by decide⟩⟩
  · obtain ⟨s, ds, heq, -, -, hne⟩ := h.integer_signed
    exact hne (List.append_eq_nil_iff.mp heq.symm).2
  · exact absurd (h.plain_digits '_' (List.mem_cons_self ..)) (by decide)
  · exact absurd (h.repeating_digits '_' (List.mem_cons_self ..)) (by decide)

end Fraction

end Reckon
