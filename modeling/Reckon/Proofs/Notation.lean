import Mathlib
import Reckon.Grammar.Notation
import Reckon.Proofs.Lists

/-!
# The parts of a number from its text

A text is the literal of one choice of parts only (`literal_injective`). Read from the left, each
part ends where the first character stands that it cannot have: the integer part has digits and a
sign, the fraction digits and the block have digits, and what stands between the parts is neither
(`append_unique`). Which parts there are tells the form.
-/

namespace Reckon

theorem isDigit_of_isNonZero {c : Char} (h : isNonZero c) : isDigit c := by
  simp only [isNonZero, isDigit, Bool.and_eq_true, decide_eq_true_eq] at h ⊢
  exact ⟨le_trans (by decide) h.1, h.2⟩

/-- Is it a digit or a minus sign? -/
def isSigned (c : Char) : Bool := c == '-' || isDigit c

theorem isSigned_of_isDigit {c : Char} (h : isDigit c) : isSigned c := by simp [isSigned, h]

namespace Notation

variable {w : List Char} {L : List Char → Prop}

/-! ### Texts that are not empty -/

theorem Positive.ne_nil (h : Positive w) : w ≠ [] := by
  obtain ⟨c, ds, rfl, _⟩ := h
  exact List.cons_ne_nil c ds

theorem Unsigned.ne_nil (h : Unsigned w) : w ≠ [] := by
  rcases h with h | rfl
  exacts [h.ne_nil, List.cons_ne_nil _ _]

theorem Signed.ne_nil (hL : ∀ v, L v → v ≠ []) (h : Signed L w) : w ≠ [] := by
  rcases h with h | ⟨v, rfl, _⟩
  exacts [hL w h, List.cons_ne_nil _ v]

theorem Integer.ne_nil (h : Integer w) : w ≠ [] := by
  rcases h with h | rfl
  exacts [h.ne_nil fun _ => Positive.ne_nil, List.cons_ne_nil _ _]

theorem WholePart.ne_nil (h : WholePart w) : w ≠ [] := Signed.ne_nil (fun _ => Unsigned.ne_nil) h

theorem Mantissa.ne_nil (h : Mantissa w) : w ≠ [] := by
  refine Signed.ne_nil (fun v hv => ?_) h
  obtain ⟨c, rfl, _⟩ := hv
  exact List.cons_ne_nil _ _

theorem FractionDigits.ne_nil (h : FractionDigits w) : w ≠ [] := by
  obtain ⟨ds, c, rfl, _⟩ := h
  simp

theorem Block.ne_nil (h : Block w) : w ≠ [] := by
  obtain ⟨_, c, hc, _⟩ := h
  exact List.ne_nil_of_mem hc

/-! ### Their characters -/

theorem Positive.digits (h : Positive w) : Digits w := by
  obtain ⟨c, ds, rfl, hc, hd⟩ := h
  intro x hx
  rcases List.mem_cons.mp hx with rfl | hx
  exacts [isDigit_of_isNonZero hc, hd x hx]

theorem Unsigned.digits (h : Unsigned w) : Digits w := by
  rcases h with h | rfl
  · exact h.digits
  · exact fun x hx => List.mem_singleton.mp hx ▸ rfl

theorem FractionDigits.digits (h : FractionDigits w) : Digits w := by
  obtain ⟨ds, c, rfl, hd, hc⟩ := h
  intro x hx
  rcases List.mem_append.mp hx with hx | hx
  exacts [hd x hx, List.mem_singleton.mp hx ▸ isDigit_of_isNonZero hc]

theorem OptionalDigits.digits {f : Option (List Char)} (h : OptionalDigits f) :
    Digits (f.getD []) := by
  cases f with
  | none => exact nofun
  | some ds => exact (h ds rfl).digits

theorem Signed.isSigned (hL : ∀ v, L v → Digits v) (h : Signed L w) : ∀ c ∈ w, isSigned c := by
  rcases h with h | ⟨v, rfl, hv⟩
  · exact fun c hc => isSigned_of_isDigit (hL w h c hc)
  · intro c hc
    rcases List.mem_cons.mp hc with rfl | hc
    exacts [rfl, isSigned_of_isDigit (hL v hv c hc)]

theorem Integer.isSigned (h : Integer w) : ∀ c ∈ w, isSigned c := by
  rcases h with h | rfl
  · exact Signed.isSigned (fun _ => Positive.digits) h
  · exact fun x hx => List.mem_singleton.mp hx ▸ rfl

theorem WholePart.isSigned (h : WholePart w) : ∀ c ∈ w, isSigned c :=
  Signed.isSigned (fun _ => Unsigned.digits) h

theorem digits_mantissa (u : List Char) (h : ∃ c, u = [c] ∧ isNonZero c) : Digits u := by
  obtain ⟨c, rfl, hc⟩ := h
  exact fun x hx => List.mem_singleton.mp hx ▸ isDigit_of_isNonZero hc

theorem Mantissa.isSigned (h : Mantissa w) : ∀ c ∈ w, isSigned c :=
  Signed.isSigned digits_mantissa h

end Notation

open Notation

theorem option_unique {L : List Char → Prop} (hL : ∀ u, L u → u ≠ []) {f g : Option (List Char)}
    (hf : ∀ u, f = some u → L u) (hg : ∀ u, g = some u → L u) (h : f.getD [] = g.getD []) :
    f = g := by
  cases f <;> cases g
  · rfl
  · exact absurd h.symm (hL _ (hg _ rfl))
  · exact absurd h (hL _ (hf _ rfl))
  · exact congrArg some h

namespace NumberParts

variable {p q : NumberParts}

/-! ### What fits -/

/-- The form of a number that has these parts besides the integer part. -/
def formOf (plain repeating exponent : Bool) : Form :=
  match exponent, repeating, plain with
  | true, true, _ => .repeatingScientific
  | true, false, _ => .scientific
  | false, true, _ => .repeatingDecimal
  | false, false, true => .decimal
  | false, false, false => .integer

theorem Fits.form_eq (h : p.Fits) :
    p.form = formOf p.plain.isSome p.repeating.isSome p.exponent.isSome := by
  obtain ⟨form, int, f, b, e⟩ := p
  cases form <;> simp only [Fits] at h
  case integer => obtain ⟨_, rfl, rfl, rfl⟩ := h; rfl
  case decimal => obtain ⟨_, ⟨_, rfl, _⟩, rfl, rfl⟩ := h; rfl
  case repeatingDecimal => obtain ⟨_, _, ⟨_, rfl, _⟩, rfl⟩ := h; rfl
  case scientific => obtain ⟨_, _, rfl, _, rfl, _⟩ := h; rfl
  case repeatingScientific => obtain ⟨_, _, ⟨_, rfl, _⟩, _, rfl, _⟩ := h; rfl

theorem Fits.integer_isSigned (h : p.Fits) : ∀ c ∈ p.integer, isSigned c := by
  obtain ⟨form, int, f, b, e⟩ := p
  cases form <;> simp only [Fits] at h
  case integer => exact h.1.isSigned
  case decimal | repeatingDecimal => exact h.1.isSigned
  case scientific | repeatingScientific => exact h.1.isSigned

theorem Fits.optionalDigits (h : p.Fits) : OptionalDigits p.plain := by
  obtain ⟨form, int, f, b, e⟩ := p
  cases form <;> simp only [Fits] at h
  case integer => obtain ⟨_, rfl, _⟩ := h; exact nofun
  case decimal =>
    obtain ⟨_, ⟨u, rfl, hu⟩, _⟩ := h
    rintro _ ⟨⟩
    exact hu
  all_goals exact h.2.1

theorem Fits.block (h : p.Fits) : ∀ b, p.repeating = some b → Block b := by
  obtain ⟨form, int, f, b, e⟩ := p
  cases form <;> simp only [Fits] at h
  case integer | decimal | scientific => obtain ⟨_, _, rfl, _⟩ := h; exact nofun
  all_goals
    obtain ⟨_, _, ⟨u, rfl, hu⟩, _⟩ := h
    rintro _ ⟨⟩
    exact hu

/-! ### The literal -/

/-- The block with its braces, if there is one. -/
def blockText (repeating : List Char) : List Char :=
  if repeating = [] then [] else '\x7b' :: (repeating ++ ['\x7d', 'R'])

/-- What follows the integer part. -/
def fractionText (plain repeating : List Char) : List Char :=
  if plain = [] ∧ repeating = [] then [] else '.' :: (plain ++ blockText repeating)

def exponentText (exponent : Option (List Char)) : List Char :=
  (exponent.map ('E' :: ·)).getD []

theorem literal_eq (p : NumberParts) : p.entries.literal =
    p.integer ++ (fractionText (p.plain.getD []) (p.repeating.getD []) ++ exponentText p.exponent) := by
  obtain ⟨form, int, f, b, e⟩ := p
  cases f <;> cases b <;> cases e <;>
    simp [Entries.literal, Entries.text, entries, lookup_cons_ite, fractionText, blockText,
      exponentText]

section
variable {f f' b b' : List Char} {e e' : Option (List Char)} {c : Char}

theorem head?_exponentText (h : c ∈ (exponentText e).head?) : c = 'E' := by
  cases e with
  | none => cases h
  | some u => exact (Option.some.inj h).symm

theorem head?_blockText (h : c ∈ (blockText b ++ exponentText e).head?) :
    c = '\x7b' ∨ c = 'E' := by
  rw [blockText] at h
  split at h
  · exact .inr (head?_exponentText h)
  · exact .inl (Option.some.inj h).symm

theorem head?_fractionText (h : c ∈ (fractionText f b ++ exponentText e).head?) :
    c = '.' ∨ c = 'E' := by
  rw [fractionText] at h
  split at h
  · exact .inr (head?_exponentText h)
  · exact .inl (Option.some.inj h).symm

theorem exponentText_injective (h : exponentText e = exponentText e') : e = e' := by
  cases e <;> cases e'
  · rfl
  · cases h
  · cases h
  · exact congrArg some (List.cons.inj h).2

theorem exponentText_ne_cons {t : List Char} (hc : c ≠ 'E') : exponentText e ≠ c :: t := by
  intro h
  exact hc (head?_exponentText (by rw [h]; rfl))

theorem blockText_injective (hb : Digits b) (hb' : Digits b')
    (h : blockText b ++ exponentText e = blockText b' ++ exponentText e') : b = b' ∧ e = e' := by
  have close (e : Option (List Char)) :
      ∀ c ∈ ('\x7d' :: 'R' :: exponentText e).head?, ¬ isDigit c :=
    fun c hc => by rw [← Option.some.inj hc]; decide
  rw [blockText, blockText] at h
  split_ifs at h with h1 h2 h2
  · exact ⟨h1.trans h2.symm, exponentText_injective h⟩
  · exact absurd h (exponentText_ne_cons (by decide))
  · exact absurd h.symm (exponentText_ne_cons (by decide))
  · rw [List.cons_append, List.cons_append, List.append_assoc, List.append_assoc] at h
    obtain ⟨rfl, h'⟩ := append_unique hb hb' (close e) (close e') (List.cons.inj h).2
    exact ⟨rfl, exponentText_injective (List.cons.inj (List.cons.inj h').2).2⟩

theorem fractionText_injective (hf : Digits f) (hf' : Digits f') (hb : Digits b) (hb' : Digits b')
    (h : fractionText f b ++ exponentText e = fractionText f' b' ++ exponentText e') :
    f = f' ∧ b = b' ∧ e = e' := by
  have stop (b : List Char) (e : Option (List Char)) :
      ∀ c ∈ (blockText b ++ exponentText e).head?, ¬ isDigit c := fun c hc => by
    rcases head?_blockText hc with rfl | rfl <;> decide
  rw [fractionText, fractionText] at h
  split_ifs at h with h1 h2 h2
  · exact ⟨h1.1.trans h2.1.symm, h1.2.trans h2.2.symm, exponentText_injective h⟩
  · exact absurd h (exponentText_ne_cons (by decide))
  · exact absurd h.symm (exponentText_ne_cons (by decide))
  · rw [List.cons_append, List.cons_append, List.append_assoc, List.append_assoc] at h
    obtain ⟨rfl, h'⟩ := append_unique hf hf' (stop b e) (stop b' e') (List.cons.inj h).2
    exact ⟨rfl, blockText_injective hb hb' h'⟩

end

theorem Fits.block_digits (h : p.Fits) : Digits (p.repeating.getD []) := by
  cases hb : p.repeating with
  | none => exact nofun
  | some b => exact (h.block b hb).1

/-- A text is the literal of one choice of parts. -/
theorem literal_injective (hp : p.Fits) (hq : q.Fits) (h : p.entries.literal = q.entries.literal) :
    p = q := by
  rw [literal_eq, literal_eq] at h
  have stop (f b : List Char) (e : Option (List Char)) :
      ∀ c ∈ (fractionText f b ++ exponentText e).head?, ¬ isSigned c := fun c hc => by
    rcases head?_fractionText hc with rfl | rfl <;> decide
  obtain ⟨hi, h⟩ := append_unique hp.integer_isSigned hq.integer_isSigned (stop _ _ _)
    (stop _ _ _) h
  obtain ⟨hf, hb, he⟩ := fractionText_injective hp.optionalDigits.digits hq.optionalDigits.digits
    hp.block_digits hq.block_digits h
  have hf := option_unique (fun _ => FractionDigits.ne_nil) hp.optionalDigits hq.optionalDigits hf
  have hb := option_unique (fun _ => Block.ne_nil) hp.block hq.block hb
  have form : p.form = q.form := by rw [hp.form_eq, hq.form_eq, hf, hb, he]
  obtain ⟨_, _, _, _, _⟩ := p
  obtain ⟨_, _, _, _, _⟩ := q
  simp only at form hi hf hb he
  rw [form, hi, hf, hb, he]

end NumberParts

end Reckon
