import Mathlib
import Reckon.Proofs.Decimal
import Reckon.Proofs.Notation

/-!
# Reading digits

What a run of digits is worth, and what the readers of integers make of it. A number written without
leading zeros is read back as it was (`digitsValue_decimalChars`), with its sign
(`spelledInteger_signed`) and whatever digits follow (`digitsValue_append`).
-/

namespace Reckon

open Notation

variable {cs ds : List Char}

theorem digitsValue_eq (ds : List Char) : digitsValue ds = Nat.ofDigitChars 10 ds 0 := rfl

theorem digitsValue_append (cs ds : List Char) :
    digitsValue (cs ++ ds) = 10 ^ ds.length * digitsValue cs + digitsValue ds := by
  rw [digitsValue_eq, Nat.ofDigitChars_append, Nat.ofDigitChars_eq_ofDigitChars_zero]
  rfl

theorem digitsValue_decimalChars (n : Nat) : digitsValue (decimalChars n) = n := by
  rw [decimalChars_eq, digitsValue_eq, Nat.ofDigitChars_ten_toDigits]

/-! ### Digits of a number -/

theorem decimalChars_digit {n : Nat} (h : n < 10) : decimalChars n = [n.digitChar] := by
  rw [decimalChars_eq, Nat.toDigits_of_lt_base h]

theorem isDigit_digitChar {n : Nat} (h : n < 10) : isDigit n.digitChar := by
  interval_cases n <;> decide

theorem isNonZero_digitChar {n : Nat} (h : n < 10) (h0 : n ≠ 0) : isNonZero n.digitChar := by
  interval_cases n <;> first | exact absurd rfl h0 | decide

theorem digitsValue_digitChar {n : Nat} (h : n < 10) : digitsValue [n.digitChar] = n := by
  interval_cases n <;> rfl

theorem digits_map_digitChar {ns : List Nat} (h : ∀ n ∈ ns, n < 10) :
    Digits (ns.map Nat.digitChar) := by
  intro c hc
  obtain ⟨n, hn, rfl⟩ := List.mem_map.mp hc
  exact isDigit_digitChar (h n hn)

theorem positive_decimalChars {n : Nat} (h : n ≠ 0) : Positive (decimalChars n) := by
  rw [decimalChars_eq]
  induction n using Nat.strong_induction_on with
  | _ n ih =>
    rw [Nat.toDigits_eq_if (by decide)]
    split
    · next hn => exact ⟨_, [], rfl, isNonZero_digitChar hn h, nofun⟩
    · next hn =>
      obtain ⟨c, ds, hcs, hc, hd⟩ := ih (n / 10) (by omega) (by omega)
      refine ⟨c, ds ++ [(n % 10).digitChar], by rw [hcs]; rfl, hc, fun d hd' => ?_⟩
      rcases List.mem_append.mp hd' with hd' | hd'
      · exact hd d hd'
      · rw [List.mem_singleton.mp hd']
        exact isDigit_digitChar (Nat.mod_lt n (by decide))

theorem unsigned_decimalChars (n : Nat) : Unsigned (decimalChars n) := by
  by_cases h : n = 0
  · exact .inr (by rw [h]; rfl)
  · exact .inl (positive_decimalChars h)

/-! ### Readers -/

theorem readNatural_digits (h : Digits ds) (hne : ds ≠ []) : readNatural ds = some (digitsValue ds) := by
  cases ds with
  | nil => exact absurd rfl hne
  | cons c cs =>
    have hc := h c (List.mem_cons_self ..)
    have hcs (d : Char) (hd : d ∈ cs) : isDigit d := h d (List.mem_cons_of_mem c hd)
    have all : cs.all (fun d => isDigit d || d == '_') = true :=
      List.all_eq_true.mpr fun d hd => by rw [hcs d hd, Bool.true_or]
    rw [readNatural, hc, all, List.filter_eq_self.mpr hcs]
    rfl

/-- A minus sign or nothing. -/
def signChars (negative : Bool) : List Char := if negative then ['-'] else []

/-- The factor that a sign stands for. -/
def signFactor (negative : Bool) : Int := if negative then -1 else 1

theorem readInteger_signed (negative : Bool) (h : Digits ds) (hne : ds ≠ []) :
    readInteger (signChars negative ++ ds) = some (signFactor negative * digitsValue ds) := by
  cases negative with
  | true => simp [signChars, signFactor, readInteger, readNatural_digits h hne]
  | false =>
    cases ds with
    | nil => exact absurd rfl hne
    | cons c cs =>
      have hc := h c (List.mem_cons_self ..)
      have hm : c ≠ '-' := fun e => absurd hc (by rw [e]; decide)
      have hp : c ≠ '+' := fun e => absurd hc (by rw [e]; decide)
      simp [signChars, signFactor, readInteger, hm, hp, readNatural_digits h hne]

theorem spelledInteger_signed (negative : Bool) (h : Digits ds) (hne : ds ≠ []) :
    spelledInteger (signChars negative ++ ds) = .ok (signFactor negative * digitsValue ds) := by
  rw [spelledInteger, readInteger_signed negative h hne]

end Reckon
