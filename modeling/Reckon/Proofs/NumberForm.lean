import Mathlib
import Reckon.Proofs.Numeral

/-!
# The form of a number

The five forms are said of whole texts by `Notation.Number`. Parts that fit write a text of their
form (`Fits.number`), and a text of a form has such parts (`Number.exists_fits`). Since a text is
the literal of one choice of parts only, no text has two forms, and `ofLiteral_isSome_iff_number` is
what taking literals apart comes to: the texts of some form, each by its form and its parts.
-/

namespace Reckon

open Notation NumberParts

variable {p : NumberParts} {form form' : Form} {w : List Char}

/-! ### From parts to a text -/

theorem optionalDigits_cases {f : Option (List Char)} (h : OptionalDigits f) :
    f.getD [] = [] ∨ FractionDigits (f.getD []) := by
  cases f with
  | none => exact .inl rfl
  | some ds => exact .inr (h ds rfl)

theorem NumberParts.Fits.number (h : p.Fits) : Number p.form p.entries.literal := by
  rw [literal_eq]
  obtain ⟨form, i, f, b, e⟩ := p
  cases form <;> simp only [Fits] at h
  case integer =>
    obtain ⟨hi, rfl, rfl, rfl⟩ := h
    simpa [fractionText, exponentText] using Number.integer hi
  case decimal =>
    obtain ⟨hi, ⟨f, rfl, hf⟩, rfl, rfl⟩ := h
    simpa [fractionText, blockText, exponentText, hf.ne_nil] using Number.decimal hi hf
  case repeatingDecimal =>
    obtain ⟨hi, hf, ⟨b, rfl, hb⟩, rfl⟩ := h
    simpa [fractionText, blockText, exponentText, hb.ne_nil] using
      Number.repeatingDecimal hi (optionalDigits_cases hf) hb
  case scientific =>
    obtain ⟨hi, hf, rfl, e, rfl, he⟩ := h
    rcases f with _ | ds
    · simpa [fractionText, exponentText] using Number.scientific hi (.inl rfl) he
    · have hds := hf ds rfl
      simpa [fractionText, blockText, exponentText, hds.ne_nil] using
        Number.scientific hi (.inr ⟨ds, rfl, hds⟩) he
  case repeatingScientific =>
    obtain ⟨hi, hf, ⟨b, rfl, hb⟩, e, rfl, he⟩ := h
    simpa [fractionText, blockText, exponentText, hb.ne_nil] using
      Number.repeatingScientific hi (optionalDigits_cases hf) hb he

/-! ### From a text to parts -/

/-- Digits that may be missing, as a part. -/
theorem exists_optionalDigits {f : List Char} (h : f = [] ∨ FractionDigits f) :
    ∃ o, OptionalDigits o ∧ o.getD [] = f := by
  rcases h with rfl | h
  · exact ⟨none, nofun, rfl⟩
  · refine ⟨some f, ?_, rfl⟩
    rintro _ ⟨⟩
    exact h

theorem Notation.Number.exists_fits (h : Number form w) :
    ∃ p : NumberParts, p.form = form ∧ p.Fits ∧ p.entries.literal = w := by
  cases h with
  | integer h =>
    refine ⟨⟨.integer, w, none, none, none⟩, rfl, ⟨h, rfl, rfl, rfl⟩, ?_⟩
    simp [literal_eq, fractionText, exponentText]
  | @decimal i f hi hf =>
    refine ⟨⟨.decimal, i, some f, none, none⟩, rfl, ⟨hi, ⟨f, rfl, hf⟩, rfl, rfl⟩, ?_⟩
    simp [literal_eq, fractionText, blockText, exponentText, hf.ne_nil]
  | @repeatingDecimal i f b hi hf hb =>
    obtain ⟨o, ho, rfl⟩ := exists_optionalDigits hf
    refine ⟨⟨.repeatingDecimal, i, o, some b, none⟩, rfl, ⟨hi, ho, ⟨b, rfl, hb⟩, rfl⟩, ?_⟩
    simp [literal_eq, fractionText, blockText, exponentText, hb.ne_nil]
  | @scientific i f e hi hf he =>
    rcases hf with rfl | ⟨ds, rfl, hds⟩
    · refine ⟨⟨.scientific, i, none, none, some e⟩, rfl, ⟨hi, by rintro _ ⟨⟩, rfl, e, rfl, he⟩, ?_⟩
      simp [literal_eq, fractionText, exponentText]
    · obtain ⟨o, ho, rfl⟩ := exists_optionalDigits (.inr hds)
      refine ⟨⟨.scientific, i, o, none, some e⟩, rfl, ⟨hi, ho, rfl, e, rfl, he⟩, ?_⟩
      simp [literal_eq, fractionText, blockText, exponentText, hds.ne_nil]
  | @repeatingScientific i f b e hi hf hb he =>
    obtain ⟨o, ho, rfl⟩ := exists_optionalDigits hf
    refine ⟨⟨.repeatingScientific, i, o, some b, some e⟩, rfl,
      ⟨hi, ho, ⟨b, rfl, hb⟩, e, rfl, he⟩, ?_⟩
    simp [literal_eq, fractionText, blockText, exponentText, hb.ne_nil]

/-! ### One form for a text -/

theorem Notation.Number.unique (h : Number form w) (h' : Number form' w) : form = form' := by
  obtain ⟨p, rfl, hp, hl⟩ := h.exists_fits
  obtain ⟨q, rfl, hq, hl'⟩ := h'.exists_fits
  rw [literal_injective hp hq (hl.trans hl'.symm)]

/-- The texts that can be taken apart are those of the five forms, each of one form only. The form
found is that of the text, each part is one of its kind, and the parts write the text. -/
theorem NumberParts.ofLiteral_isSome_iff_number (w : List Char) :
    ((NumberParts.ofLiteral w).isSome ↔ ∃ form, Number form w) ∧
      (∀ form form', Number form w → Number form' w → form = form') ∧
      ∀ p, NumberParts.ofLiteral w = some p →
        Number p.form w ∧ p.Fits ∧ p.entries.literal = w := by
  refine ⟨⟨?_, ?_⟩, fun _ _ h h' => h.unique h', ?_⟩
  · intro h
    obtain ⟨p, hp⟩ := Option.isSome_iff_exists.mp h
    obtain ⟨hfits, rfl⟩ := Numeral.ofLiteral_eq_some_iff.mp hp
    exact ⟨p.form, hfits.number⟩
  · rintro ⟨form, h⟩
    obtain ⟨p, -, hfits, hl⟩ := h.exists_fits
    rw [Numeral.ofLiteral_eq_some_iff.mpr ⟨hfits, hl⟩]
    rfl
  · intro p hp
    obtain ⟨hfits, rfl⟩ := Numeral.ofLiteral_eq_some_iff.mp hp
    exact ⟨hfits.number, hfits, rfl⟩

end Reckon
