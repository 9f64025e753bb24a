import Reckon.Grammar.Number

/-!
# The notation of numbers and operands

What the forms of a number look like, said of the text alone. A number has a signed integer part;
depending on its form it goes on with a point and fraction digits, a block of repeating digits
between braces and followed by `R`, and an exponent after `E`. `NumberParts.Fits` says which parts
make a number of which form, and `Entries.literal` writes them.

`Notation.Number` says the same of whole texts, form by form, with no mention of parts.

An operand is a placeholder, a name with placeholders behind it, a name or a number.
-/

namespace Reckon

/-- Is it a digit other than `0`? -/
def isNonZero (c : Char) : Bool := '1' ≤ c && c ≤ '9'

def isNameStart (c : Char) : Bool := ('a' ≤ c && c ≤ 'z') || ('A' ≤ c && c ≤ 'Z') || c == '_'

def isNamePart (c : Char) : Bool := isNameStart c || isDigit c

namespace Notation

def Digits (w : List Char) : Prop := ∀ c ∈ w, isDigit c

/-- Digits that do not start with `0`. -/
def Positive (w : List Char) : Prop := ∃ c ds, w = c :: ds ∧ isNonZero c ∧ Digits ds

def Unsigned (w : List Char) : Prop := Positive w ∨ w = ['0']

/-- A text of `L`, or one after a minus sign. -/
def Signed (L : List Char → Prop) (w : List Char) : Prop := L w ∨ ∃ v, w = '-' :: v ∧ L v

/-- A whole number. Zero has no sign. -/
def Integer (w : List Char) : Prop := Signed Positive w ∨ w = ['0']

/-- What stands before a point. Zero may have a sign. -/
def WholePart (w : List Char) : Prop := Signed Unsigned w

/-- What stands before the point of a number with an exponent: one digit. -/
def Mantissa (w : List Char) : Prop := Signed (fun v => ∃ c, v = [c] ∧ isNonZero c) w

/-- Digits that do not end in `0`. -/
def FractionDigits (w : List Char) : Prop := ∃ ds c, w = ds ++ [c] ∧ Digits ds ∧ isNonZero c

def OptionalDigits (f : Option (List Char)) : Prop := ∀ ds, f = some ds → FractionDigits ds

/-- Digits that are not all `0`. -/
def Block (w : List Char) : Prop := Digits w ∧ ∃ c ∈ w, isNonZero c

def Name : List Char → Prop
  | [] => False
  | c :: cs => isNameStart c ∧ ∀ d ∈ cs, isNamePart d

/-- The texts of a form. -/
inductive Number : Form → List Char → Prop
  | integer {w : List Char} (h : Integer w) : Number .integer w
  | decimal {i f : List Char} (hi : WholePart i) (hf : FractionDigits f) :
      Number .decimal (i ++ '.' :: f)
  | repeatingDecimal {i f b : List Char} (hi : WholePart i) (hf : f = [] ∨ FractionDigits f)
      (hb : Block b) : Number .repeatingDecimal (i ++ '.' :: (f ++ '\x7b' :: (b ++ ['\x7d', 'R'])))
  | scientific {i f e : List Char} (hi : Mantissa i)
      (hf : f = [] ∨ ∃ ds, f = '.' :: ds ∧ FractionDigits ds) (he : Integer e) :
      Number .scientific (i ++ (f ++ 'E' :: e))
  | repeatingScientific {i f b e : List Char} (hi : Mantissa i) (hf : f = [] ∨ FractionDigits f)
      (hb : Block b) (he : Integer e) :
      Number .repeatingScientific
        (i ++ '.' :: (f ++ '\x7b' :: (b ++ '\x7d' :: 'R' :: 'E' :: e)))

end Notation

open Notation in
/-- The parts make a number of their form. -/
def NumberParts.Fits (p : NumberParts) : Prop :=
  match p.form with
  | .integer => Integer p.integer ∧ p.plain = none ∧ p.repeating = none ∧ p.exponent = none
  | .decimal =>
    WholePart p.integer ∧ (∃ f, p.plain = some f ∧ FractionDigits f) ∧ p.repeating = none ∧
      p.exponent = none
  | .repeatingDecimal =>
    WholePart p.integer ∧ OptionalDigits p.plain ∧
      (∃ b, p.repeating = some b ∧ Block b) ∧ p.exponent = none
  | .scientific =>
    Mantissa p.integer ∧ OptionalDigits p.plain ∧ p.repeating = none ∧
      ∃ e, p.exponent = some e ∧ Integer e
  | .repeatingScientific =>
    Mantissa p.integer ∧ OptionalDigits p.plain ∧
      (∃ b, p.repeating = some b ∧ Block b) ∧ ∃ e, p.exponent = some e ∧ Integer e
  | _ => False

end Reckon
