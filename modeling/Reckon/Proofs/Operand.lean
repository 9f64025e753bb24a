import Mathlib
import Reckon.Formula.Spelling
import Reckon.Proofs.Notation

/-!
# Where an operand ends

An operand can be the start of a longer one, as `f` is of `f1` and `1` of `1E-2`, but what follows
it there is no operator: in a literal a minus sign stands first or behind an `E`, and no operand that
starts like a literal ends in an `E` (`Operand.Spelled.not_operator`). So if operands are read as far
as they go, no operator behind a shorter one is missed (`Unary.commits`).
-/

namespace Reckon

open Notation

theorem le_of_isNameStart {c : Char} (h : isNameStart c) : 'A' ≤ c := by
  simp only [isNameStart, Bool.or_eq_true, Bool.and_eq_true, decide_eq_true_eq, beq_iff_eq] at h
  rcases h with (h | h) | rfl
  · exact le_trans (by decide) h.1
  · exact h.1
  · decide

theorem le_of_isSigned {c : Char} (h : isSigned c) : c ≤ '9' := by
  simp only [isSigned, isDigit, Bool.or_eq_true, Bool.and_eq_true, decide_eq_true_eq,
    beq_iff_eq] at h
  rcases h with rfl | h
  · decide
  · exact h.2

theorem not_isSigned {c : Char} (h : isNameStart c) : ¬ isSigned c := fun hs =>
  absurd (le_trans (le_of_isNameStart h) (le_of_isSigned hs)) (by decide)

/-! ### Minus signs in a literal -/

namespace Notation

variable {w v t : List Char} {L : List Char → Prop}

theorem Digits.not_minus (h : Digits w) : '-' ∉ w := fun hm => absurd (h '-' hm) (by decide)

theorem Signed.minus (hL : ∀ u, L u → Digits u) (h : Signed L ('-' :: v)) : L v := by
  rcases h with h | ⟨u, hu, h⟩
  · exact absurd (List.mem_cons_self ..) (hL _ h).not_minus
  · exact (List.cons.inj hu).2 ▸ h

theorem Signed.not_mem_tail (hL : ∀ u, L u → Digits u) (h : Signed L w) : '-' ∉ w.tail := by
  intro hm
  rcases h with h | ⟨u, rfl, h⟩
  · exact (hL _ h).not_minus (List.mem_of_mem_tail hm)
  · exact (hL _ h).not_minus hm

theorem Integer.minus (h : Integer ('-' :: v)) : Integer v := by
  rcases h with h | h
  · exact .inl (.inl (h.minus fun _ => Positive.digits))
  · cases h

theorem Integer.not_mem_tail (h : Integer w) : '-' ∉ w.tail := by
  rcases h with h | rfl
  · exact h.not_mem_tail fun _ => Positive.digits
  · exact List.not_mem_nil

theorem WholePart.minus (h : WholePart ('-' :: v)) : WholePart v :=
  .inl (Signed.minus (fun _ => Unsigned.digits) h)

theorem Mantissa.minus (h : Mantissa ('-' :: v)) : Mantissa v :=
  .inl (Signed.minus digits_mantissa h)

/-! ### The last character of a literal -/

theorem Digits.exists_last (h : Digits w) (hne : w ≠ []) : ∃ v c, w = v ++ [c] ∧ isDigit c := by
  obtain ⟨v, c, rfl⟩ := (List.eq_nil_or_concat w).resolve_left hne
  exact ⟨v, c, List.concat_eq_append, h c (by simp)⟩

theorem Signed.exists_last (hL : ∀ u, L u → Digits u ∧ u ≠ []) (h : Signed L w) :
    ∃ v c, w = v ++ [c] ∧ isDigit c := by
  rcases h with h | ⟨u, rfl, h⟩
  · exact (hL w h).1.exists_last (hL w h).2
  · obtain ⟨v, c, rfl, hc⟩ := (hL u h).1.exists_last (hL u h).2
    exact ⟨'-' :: v, c, rfl, hc⟩

theorem Integer.exists_last (h : Integer w) : ∃ v c, w = v ++ [c] ∧ isDigit c := by
  rcases h with h | rfl
  · exact h.exists_last fun _ hu => ⟨hu.digits, hu.ne_nil⟩
  · exact ⟨[], '0', rfl, by decide⟩

end Notation

namespace NumberParts

variable {p : NumberParts} {v t : List Char} {c : Char}

theorem Fits.integer_ne_nil (h : p.Fits) : p.integer ≠ [] := by
  obtain ⟨form, int, f, b, e⟩ := p
  cases form <;> simp only [Fits] at h
  case integer => exact h.1.ne_nil
  case decimal | repeatingDecimal => exact h.1.ne_nil
  case scientific | repeatingScientific => exact h.1.ne_nil

theorem Fits.integer_not_mem_tail (h : p.Fits) : '-' ∉ p.integer.tail := by
  obtain ⟨form, int, f, b, e⟩ := p
  cases form <;> simp only [Fits] at h
  case integer => exact h.1.not_mem_tail
  case decimal | repeatingDecimal => exact Signed.not_mem_tail (fun _ => Unsigned.digits) h.1
  case scientific | repeatingScientific => exact Signed.not_mem_tail digits_mantissa h.1

theorem Fits.exponent_integer (h : p.Fits) : ∀ e, p.exponent = some e → Integer e := by
  obtain ⟨form, int, f, b, e⟩ := p
  cases form <;> simp only [Fits] at h
  case integer | decimal | repeatingDecimal =>
    obtain ⟨_, _, _, rfl⟩ := h
    rintro _ ⟨⟩
  all_goals
    obtain ⟨_, _, _, u, rfl, hu⟩ := h
    rintro _ ⟨⟩
    exact hu

/-- Without its minus sign a number is a number. -/
theorem Fits.minus (h : p.Fits) (hi : p.integer = '-' :: v) : Fits { p with integer := v } := by
  obtain ⟨form, int, f, b, e⟩ := p
  obtain rfl : int = '-' :: v := hi
  cases form <;> simp only [Fits] at h ⊢
  case integer => exact ⟨h.1.minus, h.2⟩
  case decimal | repeatingDecimal => exact ⟨h.1.minus, h.2⟩
  case scientific | repeatingScientific => exact ⟨h.1.minus, h.2⟩

theorem mem_fractionText {f b : List Char} (hf : Digits f) (hb : Digits b)
    (hc : c ∈ fractionText f b) : isDigit c ∨ c ∈ ['.', '\x7b', '\x7d', 'R'] := by
  have block (h : c ∈ blockText b) : isDigit c ∨ c ∈ ['.', '\x7b', '\x7d', 'R'] := by
    rw [blockText] at h
    split at h
    · cases h
    · simp only [List.mem_cons, List.mem_append, List.not_mem_nil, or_false] at h ⊢
      rcases h with h | h | h | h
      exacts [.inr (.inr (.inl h)), .inl (hb c h), .inr (.inr (.inr (.inl h))),
        .inr (.inr (.inr (.inr h)))]
  rw [fractionText] at hc
  split at hc
  · cases hc
  · rcases List.mem_cons.mp hc with rfl | hc
    · exact .inr (List.mem_cons_self ..)
    · rcases List.mem_append.mp hc with hc | hc
      exacts [.inl (hf c hc), block hc]

theorem Fits.mem_fraction (h : p.Fits)
    (hc : c ∈ fractionText (p.plain.getD []) (p.repeating.getD [])) :
    isDigit c ∨ c ∈ ['.', '\x7b', '\x7d', 'R'] :=
  mem_fractionText h.optionalDigits.digits h.block_digits hc

theorem Fits.mem_literal (h : p.Fits) (hc : c ∈ p.entries.literal) :
    isSigned c ∨ c ∈ ['.', '\x7b', '\x7d', 'R', 'E'] := by
  rw [literal_eq] at hc
  rcases List.mem_append.mp hc with hc | hc
  · exact .inl (h.integer_isSigned c hc)
  · rcases List.mem_append.mp hc with hc | hc
    · rcases h.mem_fraction hc with hc | hc
      · exact .inl (isSigned_of_isDigit hc)
      · exact .inr (List.mem_append_left ['E'] hc)
    · cases he : p.exponent with
      | none => rw [he] at hc; cases hc
      | some e =>
        rw [he] at hc
        rcases List.mem_cons.mp hc with rfl | hc
        · exact .inr (by decide)
        · exact .inl ((h.exponent_integer e he).isSigned c hc)

theorem Fits.placeholder_not_mem (h : p.Fits) : placeholder ∉ p.entries.literal := fun hm => by
  rcases h.mem_literal hm with hm | hm <;> exact absurd hm (by decide)

theorem Fits.literal_starts (h : p.Fits) : ∃ c t, p.entries.literal = c :: t ∧ isSigned c := by
  obtain ⟨c, ds, hi⟩ := List.exists_cons_of_ne_nil h.integer_ne_nil
  rw [literal_eq, hi, List.cons_append]
  exact ⟨c, _, rfl, h.integer_isSigned c (hi ▸ List.mem_cons_self ..)⟩

theorem Fits.literal_minus (h : p.Fits) (hl : p.entries.literal = '-' :: v) :
    ∃ q : NumberParts, q.Fits ∧ q.entries.literal = v := by
  obtain ⟨c, ds, hi⟩ := List.exists_cons_of_ne_nil h.integer_ne_nil
  rw [literal_eq, hi, List.cons_append] at hl
  obtain ⟨rfl, rfl⟩ := List.cons.inj hl
  exact ⟨_, h.minus hi, literal_eq _⟩

/-- A minus sign stands first or behind the `E`. -/
theorem Fits.before_minus (h : p.Fits) (hl : p.entries.literal = v ++ '-' :: t) (hv : v ≠ []) :
    ∃ u, v = u ++ ['E'] := by
  obtain ⟨c, ds, hi⟩ := List.exists_cons_of_ne_nil h.integer_ne_nil
  obtain ⟨d, v, rfl⟩ := List.exists_cons_of_ne_nil hv
  have hds : '-' ∉ ds := by simpa [hi] using h.integer_not_mem_tail
  have hfrac : '-' ∉ fractionText (p.plain.getD []) (p.repeating.getD []) := fun hm => by
    rcases h.mem_fraction hm with hm | hm
    · cases hm
    · exact absurd hm (by decide)
  rw [literal_eq, hi, List.cons_append, List.cons_append] at hl
  obtain ⟨rfl, hvt⟩ := List.cons.inj hl
  rcases List.append_eq_append_iff.mp ((List.append_assoc ..).trans hvt) with ⟨s, rfl, hs⟩ | ⟨s, hs, ht⟩
  · cases he : p.exponent with
    | none =>
      rw [he] at hs
      cases s <;> cases hs
    | some e =>
      have hm := (h.exponent_integer e he).not_mem_tail
      rw [he] at hs
      obtain _ | ⟨x, s⟩ := s
      · cases hs
      obtain ⟨rfl, rfl⟩ := List.cons.inj hs
      cases s with
      | nil => exact ⟨c :: (ds ++ _), rfl⟩
      | cons y s => exact absurd (List.mem_append_right s (List.mem_cons_self ..)) hm
  · cases s with
    | nil => exact absurd ht.symm (exponentText_ne_cons (by decide))
    | cons x s =>
      obtain ⟨rfl, _⟩ := List.cons.inj ht
      have hm : '-' ∈ ds ++ fractionText (p.plain.getD []) (p.repeating.getD []) :=
        hs ▸ List.mem_append_right v (List.mem_cons_self ..)
      exact absurd hm (by simpa using ⟨hds, hfrac⟩)

theorem Fits.integer_last (h : p.Fits) : ∃ v c, p.integer = v ++ [c] ∧ isDigit c := by
  obtain ⟨form, int, f, b, e⟩ := p
  cases form <;> simp only [Fits] at h
  case integer => exact h.1.exists_last
  case decimal | repeatingDecimal =>
    exact Signed.exists_last (fun _ hu => ⟨hu.digits, hu.ne_nil⟩) h.1
  case scientific | repeatingScientific =>
    exact Signed.exists_last (fun u hu => ⟨digits_mantissa u hu, hu.elim fun _ hc => by simp [hc.1]⟩) h.1

/-- The last character of a number is a digit or that of a block. -/
theorem Fits.exists_last (h : p.Fits) :
    ∃ v c, p.entries.literal = v ++ [c] ∧ (isDigit c ∨ c = 'R') := by
  rw [literal_eq, ← List.append_assoc]
  rcases he : p.exponent with _ | e
  · rw [exponentText, Option.map_none, Option.getD_none, List.append_nil, fractionText]
    split
    · obtain ⟨v, c, hi, hc⟩ := h.integer_last
      exact ⟨v, c, by rw [List.append_nil, hi], .inl hc⟩
    · next hne =>
      by_cases hb : p.repeating.getD [] = []
      · have hf := h.optionalDigits.digits
        obtain ⟨v, c, hv, hc⟩ := hf.exists_last fun hf => hne ⟨hf, hb⟩
        exact ⟨p.integer ++ '.' :: v, c, by simp [blockText, hb, hv], .inl hc⟩
      · exact ⟨p.integer ++ '.' :: (p.plain.getD [] ++ '\x7b' :: (p.repeating.getD [] ++ ['\x7d'])),
          'R', by simp [blockText, hb], .inr rfl⟩
  · obtain ⟨v, c, rfl, hc⟩ := (h.exponent_integer e he).exists_last
    exact ⟨p.integer ++ fractionText (p.plain.getD []) (p.repeating.getD []) ++ 'E' :: v, c,
      by simp [exponentText], .inl hc⟩

theorem Fits.literal_not_last (h : p.Fits) (hc : ¬ isDigit c) (hR : c ≠ 'R') :
    p.entries.literal ≠ v ++ [c] := by
  intro hl
  obtain ⟨v', c', hv, hc'⟩ := h.exists_last
  obtain ⟨-, hcc⟩ := List.append_inj' (hv.symm.trans hl) rfl
  obtain rfl : c' = c := by simpa using hcc
  exact hc'.elim hc hR

end NumberParts

/-! ### Operands -/

theorem Notation.Name.isNamePart {w : List Char} (h : Name w) : ∀ c ∈ w, isNamePart c := by
  cases w with
  | nil => cases h
  | cons c w =>
    intro d hd
    rcases List.mem_cons.mp hd with rfl | hd
    exacts [by simp [Reckon.isNamePart, h.1], h.2 d hd]

theorem symbol_not_isNamePart (o : Operator) : ¬ isNamePart o.symbol := by cases o <;> decide

namespace Operand

variable {x y : Operand} {u v w t : List Char} {c : Char}

/-- Can the text of the operand begin with `c`? -/
def begins : Operand → Char → Bool
  | .placeholder, c => c == Reckon.placeholder
  | .call _ _, c | .var _, c => isNameStart c
  | .number _ _, c => isSigned c

theorem Spelled.begins (h : x.Spelled w) : ∃ c t, w = c :: t ∧ x.begins c := by
  have name {w : List Char} (h : Name w) : ∃ c t, w = c :: t ∧ isNameStart c := by
    cases w with
    | nil => cases h
    | cons c w => exact ⟨c, w, rfl, h.1⟩
  cases h with
  | group => exact ⟨_, _, rfl, rfl⟩
  | call h =>
    obtain ⟨c, t, rfl, hc⟩ := name h
    exact ⟨c, _, rfl, hc⟩
  | var h => exact name h
  | number h => exact h.literal_starts

theorem Spelled.ne_nil (h : x.Spelled w) : w ≠ [] := by
  obtain ⟨c, t, rfl, _⟩ := h.begins
  exact List.cons_ne_nil c t

/-- A text is at most one operand. -/
theorem Spelled.unique (hx : x.Spelled w) (hy : y.Spelled w) : x = y := by
  obtain ⟨c, t, hw, hc⟩ := hx.begins
  obtain ⟨d, s, hw', hd⟩ := hy.begins
  obtain rfl : c = d := (List.cons.inj (hw.symm.trans hw')).1
  generalize he : w = v at hy
  have placeholder_mem (name : List Char) (n : Nat) :
      Reckon.placeholder ∈ name ++ List.replicate (n + 1) Reckon.placeholder :=
    List.mem_append_right _ (List.mem_replicate.mpr ⟨Nat.succ_ne_zero n, rfl⟩)
  cases hx <;> cases hy <;> simp only [Operand.begins, beq_iff_eq] at hc hd
  case group.group => rfl
  case group.call | group.var | group.number => exact absurd hd (by rw [hc]; decide)
  case call.group | var.group | number.group => exact absurd hc (by rw [hd]; decide)
  case call.number | var.number => exact absurd hd (not_isSigned hc)
  case number.call | number.var => exact absurd hc (not_isSigned hd)
  case call.call h _ m g =>
    have stop (n : Nat) : ∀ c ∈ (List.replicate (n + 1) Reckon.placeholder).head?, ¬ isNamePart c :=
      fun c hc => by rw [← Option.some.inj hc]; decide
    obtain ⟨rfl, hr⟩ := append_unique h.isNamePart g.isNamePart (stop _) (stop _) he
    have := congrArg List.length hr
    rw [List.length_replicate, List.length_replicate] at this
    rw [this]
  case call.var h => exact absurd (h.isNamePart _ (he ▸ placeholder_mem _ _)) (by decide)
  case var.call h _ _ _ => exact absurd (h.isNamePart _ (he ▸ placeholder_mem _ _)) (by decide)
  case var.var => rw [he]
  case number.number h q g =>
    obtain rfl := NumberParts.literal_injective h g he
    rfl

/-- What makes a longer operand of an operand is no operator. -/
theorem Spelled.not_operator (hy : y.Spelled v) (hx : x.Spelled (v ++ c :: t)) (o : Operator) :
    c ≠ o.symbol := by
  rintro rfl
  obtain ⟨d, s, rfl, hd⟩ := hy.begins
  have hm : o.symbol ∈ d :: s ++ o.symbol :: t := List.mem_append_right _ (List.mem_cons_self ..)
  generalize he : d :: s ++ o.symbol :: t = w at hx hm
  cases hx with
  | group => exact absurd (List.mem_singleton.mp hm) (by cases o <;> decide)
  | call h =>
    rcases List.mem_append.mp hm with hm | hm
    · exact symbol_not_isNamePart o (h.isNamePart _ hm)
    · exact absurd (List.eq_of_mem_replicate hm) (by cases o <;> decide)
  | var h => exact symbol_not_isNamePart o (h.isNamePart _ hm)
  | number h =>
    obtain hs : o.symbol = '-' := by
      rcases h.mem_literal hm with hm | hm <;> revert hm <;> cases o <;> decide
    rw [hs] at he
    obtain ⟨u, hu⟩ := h.before_minus he.symm (List.cons_ne_nil d s)
    have signed : isSigned d := by
      obtain ⟨e, r, hl, he'⟩ := h.literal_starts
      rw [hl] at he
      exact (List.cons.inj he).1 ▸ he'
    -- the operand before the sign ends in an `E` and starts like a number
    rw [hu] at hy
    generalize hv : u ++ ['E'] = v at hy
    cases hy with
    | group => exact absurd signed (by rw [beq_iff_eq.mp hd]; decide)
    | call | var => exact not_isSigned hd signed
    | number h => exact h.literal_not_last (by decide) (by decide) hv.symm

theorem Spelled.minus (h : x.Spelled (minusSign :: v)) : ∃ y : Operand, y.Spelled v := by
  obtain ⟨c, t, hc, hb⟩ := h.begins
  obtain rfl : minusSign = c := (List.cons.inj hc).1
  generalize hw : minusSign :: v = w at h
  cases h with
  | group => cases hb
  | call | var => cases hb
  | number h =>
    obtain ⟨q, hq, rfl⟩ := h.literal_minus hw.symm
    exact ⟨_, .number hq⟩

end Operand

/-! ### Negated operands -/

namespace Unary

variable {g g' : Bool} {x x' : Operand} {u u' v w r t : List Char} {c : Char}

theorem ne_nil (h : Unary g x w) : w ≠ [] := by
  cases h with
  | negated _ => exact List.cons_ne_nil _ _
  | plain h _ => exact h.ne_nil

/-- With a minus sign in front an operand is negated. -/
theorem minus (h : Unary g x (minusSign :: v)) : g = true ∧ x.Spelled v := by
  generalize hw : minusSign :: v = w at h
  cases h with
  | negated h => exact ⟨rfl, (List.cons.inj hw).2 ▸ h⟩
  | plain h hm =>
    obtain ⟨y, hy⟩ := Operand.Spelled.minus (hw ▸ h)
    exact absurd hy (hm y v hw.symm)

theorem spelled (h : Unary g x w) (hw : w.head? ≠ some minusSign) : g = false ∧ x.Spelled w := by
  cases h with
  | negated => exact absurd rfl hw
  | plain h _ => exact ⟨rfl, h⟩

theorem unique (h : Unary g x w) (h' : Unary g' x' w) : g = g' ∧ x = x' := by
  by_cases hw : w.head? = some minusSign
  · obtain ⟨v, rfl⟩ := List.head?_eq_some_iff.mp hw
    exact ⟨h.minus.1.trans h'.minus.1.symm, h.minus.2.unique h'.minus.2⟩
  · exact ⟨(h.spelled hw).1.trans (h'.spelled hw).1.symm, (h.spelled hw).2.unique (h'.spelled hw).2⟩

theorem not_operator (h : Unary g x u) (h' : Unary g' x' (u ++ c :: t)) (o : Operator) :
    c ≠ o.symbol := by
  have hne := h.ne_nil
  by_cases hu : u.head? = some minusSign
  · obtain ⟨v, rfl⟩ := List.head?_eq_some_iff.mp hu
    exact h.minus.2.not_operator h'.minus.2 o
  · have hw : (u ++ c :: t).head? ≠ some minusSign := by
      rwa [List.head?_append_of_ne_nil _ hne]
    exact (h.spelled hu).2.not_operator (h'.spelled hw).2 o

/-- After an operand that is shorter than another one at the same place there is no operator. -/
theorem commits (h : Unary g x u) (h' : Unary g' x' u') (hle : u'.length ≤ u.length) {n : Nat}
    {steps : List Step} (hs : Pairs n steps w) (he : u' ++ (w ++ t) = u ++ r) :
    (u' = u ∧ w ++ t = r) ∨ (w = [] ∧ steps = [] ∧ u'.length < u.length) := by
  rcases List.append_eq_append_iff.mp he with ⟨s, rfl, hr⟩ | ⟨s, rfl, hr⟩
  · cases s with
    | nil => exact .inl ⟨(List.append_nil u').symm, hr⟩
    | cons c s =>
      refine .inr ?_
      cases hs with
      | nil => exact ⟨rfl, rfl, by simp⟩
      | cons hu hs => exact absurd (List.cons.inj hr).1.symm (h'.not_operator h _)
  · rw [List.length_append] at hle
    obtain rfl : s = [] := List.length_eq_zero_iff.mp (by omega)
    exact .inl ⟨List.append_nil u, hr.symm⟩

end Unary

end Reckon
