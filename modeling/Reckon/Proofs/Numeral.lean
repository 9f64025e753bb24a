import Mathlib
import Reckon.Proofs.Component
import Reckon.Proofs.Marks
import Reckon.Proofs.Notation

/-!
# What the grammar takes for a number

The tables of the grammar assemble one pattern for all numbers, `Numeral.pattern`, and put it in
other patterns with its groups shifted. It reads the literals of parts that fit (`reads_of_fits`)
and no other text, and from the marks it passes the parts are found again (`found_of_reads`). A text
is written by one choice of parts only, so taking a complete literal apart is the inverse of writing
one (`ofLiteral_eq_some_iff`).
-/

namespace Reckon

namespace Numeral

/-! ### The patterns -/

def digit : Pattern := .set ⟨false, [('0', '9')]⟩

def nonZero : Pattern := .set ⟨false, [('1', '9')]⟩

def char (c : Char) : Pattern := .set (.single c)

def positive : Pattern := .cat nonZero (.star digit)

def signed (p : Pattern) : Pattern := .cat (.opt (char '-')) p

def integer : Pattern := .alt (signed positive) (char '0')

def wholePart : Pattern := signed (.alt positive (char '0'))

def mantissa : Pattern := signed nonZero

def fraction : Pattern := .cat (.star digit) nonZero

def block : Pattern := .cat (.star digit) (.cat (.plus nonZero) (.star digit))

/-- The repeating block with its braces, after some fraction digits. -/
def suffix (i j : Nat) : Pattern :=
  .cat (.opt (.group i fraction))
    (.cat (char '\x7b') (.cat (.group j block) (.cat (char '\x7d') (char 'R'))))

def repeatingScientific (n : Nat) : Pattern :=
  .cat (.group (n + 2) mantissa)
    (.cat (char '.') (.cat (suffix (n + 3) (n + 4)) (.cat (char 'E') (.group (n + 5) integer))))

def scientific (n : Nat) : Pattern :=
  .cat (.group (n + 7) mantissa)
    (.cat (.opt (.group (n + 8) (.cat (char '.') (.group (n + 9) fraction))))
      (.cat (char 'E') (.group (n + 10) integer)))

def repeatingDecimal (n : Nat) : Pattern :=
  .cat (.group (n + 12) wholePart) (.cat (char '.') (suffix (n + 13) (n + 14)))

def decimal (n : Nat) : Pattern :=
  .cat (.group (n + 16) wholePart) (.cat (char '.') (.group (n + 17) fraction))

/-- All numbers, where `n` groups open before. -/
def pattern (n : Nat) : Pattern :=
  .alt (.group (n + 1) (repeatingScientific n))
    (.alt (.group (n + 6) (scientific n))
      (.alt (.group (n + 11) (repeatingDecimal n))
        (.alt (.group (n + 15) (decimal n)) (.group (n + 18) (.group (n + 19) integer)))))

/-- The names of the groups of `pattern n`. -/
def parts (n : Nat) : List Part :=
  [⟨.repeatingScientific, n + 1, [⟨.integerPart, n + 2, []⟩, ⟨.plainFraction, n + 3, []⟩,
      ⟨.repeatingFraction, n + 4, []⟩, ⟨.exponent, n + 5, []⟩]⟩,
    ⟨.scientific, n + 6, [⟨.integerPart, n + 7, []⟩,
      ⟨.mantissaFraction, n + 8, [⟨.plainFraction, n + 9, []⟩]⟩, ⟨.exponent, n + 10, []⟩]⟩,
    ⟨.repeatingDecimal, n + 11, [⟨.integerPart, n + 12, []⟩, ⟨.plainFraction, n + 13, []⟩,
      ⟨.repeatingFraction, n + 14, []⟩]⟩,
    ⟨.decimal, n + 15, [⟨.integerPart, n + 16, []⟩, ⟨.plainFraction, n + 17, []⟩]⟩,
    ⟨.integer, n + 18, [⟨.integerPart, n + 19, []⟩]⟩]

theorem anyNumber_component : Form.anyNumber.component.pattern = pattern 0 ∧
    Form.anyNumber.component.parts = parts 0 := by
  decide +kernel

theorem pattern_free (n : Nat) : (pattern n).free := rfl

/-! ### What they read -/

open Pattern Notation

variable {w : List Char} {pos : Nat} {ms : List (Mark × Nat)}

theorem mem_range (a b x : Char) : (⟨false, [(a, b)]⟩ : CharSet).mem x = (a ≤ x && x ≤ b) := by
  simp [CharSet.mem]

theorem mem_single (c x : Char) : (CharSet.single c).mem x ↔ x = c :=
  (CharSet.mem_singles [c] x).trans List.mem_singleton

theorem reads_char {c : Char} : Reads (char c) w pos ms ↔ w = [c] ∧ ms = [] := by
  simp [char, reads_set_iff, mem_single]

theorem reads_nonZero : Reads nonZero w pos ms ↔ (∃ c, w = [c] ∧ isNonZero c) ∧ ms = [] := by
  simp only [nonZero, reads_set_iff, mem_range, isNonZero]
  constructor
  · rintro ⟨c, hc, rfl, rfl⟩
    exact ⟨⟨c, rfl, hc⟩, rfl⟩
  · rintro ⟨⟨c, rfl, hc⟩, rfl⟩
    exact ⟨c, hc, rfl, rfl⟩

theorem reads_digits : Reads (.star digit) w pos ms ↔ Digits w ∧ ms = [] := by
  simp only [digit, reads_star_set_iff, mem_range, Digits, isDigit]

theorem reads_positive : Reads positive w pos ms ↔ Positive w ∧ ms = [] := by
  simp only [positive, reads_cat_iff, reads_nonZero, reads_digits, Positive]
  constructor
  · rintro ⟨u, v, ks, ns, ⟨⟨c, rfl, hc⟩, rfl⟩, ⟨hv, rfl⟩, rfl, rfl⟩
    exact ⟨⟨c, v, rfl, hc, hv⟩, rfl⟩
  · rintro ⟨⟨c, ds, rfl, hc, hd⟩, rfl⟩
    exact ⟨[c], ds, [], [], ⟨⟨c, rfl, hc⟩, rfl⟩, ⟨hd, rfl⟩, rfl, rfl⟩

/-- A pattern that passes no group reads the texts of `L`. -/
def Plain (p : Pattern) (L : List Char → Prop) : Prop :=
  ∀ w pos ms, Reads p w pos ms ↔ L w ∧ ms = []

theorem Plain.signed {p : Pattern} {L : List Char → Prop} (h : Plain p L) :
    Plain (signed p) (Signed L) := by
  intro w pos ms
  simp only [Numeral.signed, reads_cat_iff, reads_opt_iff, reads_char, h _ _ _, Signed]
  constructor
  · rintro ⟨u, v, ks, ns, ⟨rfl, rfl⟩ | ⟨rfl, rfl⟩, ⟨hv, rfl⟩, rfl, rfl⟩
    · exact ⟨.inr ⟨v, rfl, hv⟩, rfl⟩
    · exact ⟨.inl hv, rfl⟩
  · rintro ⟨hw | ⟨v, rfl, hv⟩, rfl⟩
    · exact ⟨[], w, [], [], .inr ⟨rfl, rfl⟩, ⟨hw, rfl⟩, rfl, rfl⟩
    · exact ⟨['-'], v, [], [], .inl ⟨rfl, rfl⟩, ⟨hv, rfl⟩, rfl, rfl⟩

theorem Plain.alt {p q : Pattern} {L M : List Char → Prop} (hp : Plain p L) (hq : Plain q M) :
    Plain (.alt p q) fun w => L w ∨ M w := by
  intro w pos ms
  rw [reads_alt_iff, hp, hq, or_and_right]

theorem plain_positive : Plain positive Positive := fun _ _ _ => reads_positive

theorem plain_zero : Plain (char '0') fun w => w = ['0'] := fun _ _ _ => reads_char

theorem plain_integer : Plain integer Integer := plain_positive.signed.alt plain_zero

theorem plain_wholePart : Plain wholePart WholePart := (plain_positive.alt plain_zero).signed

theorem plain_mantissa : Plain mantissa Mantissa :=
  Plain.signed fun _ _ _ => reads_nonZero

theorem plain_fraction : Plain fraction FractionDigits := by
  intro w pos ms
  simp only [fraction, reads_cat_iff, reads_nonZero, reads_digits, FractionDigits]
  constructor
  · rintro ⟨u, v, ks, ns, ⟨hu, rfl⟩, ⟨⟨c, rfl, hc⟩, rfl⟩, rfl, rfl⟩
    exact ⟨⟨u, c, rfl, hu, hc⟩, rfl⟩
  · rintro ⟨⟨ds, c, rfl, hd, hc⟩, rfl⟩
    exact ⟨ds, [c], [], [], ⟨hd, rfl⟩, ⟨⟨c, rfl, hc⟩, rfl⟩, rfl, rfl⟩

theorem plain_block : Plain block Block := by
  intro w pos ms
  simp only [block, reads_cat_iff, reads_plus_iff, reads_nonZero, reads_digits, Block]
  have many : ∀ {v pos ms}, Reads (.star nonZero) v pos ms ↔ (∀ c ∈ v, isNonZero c) ∧ ms = [] := by
    intro v pos ms
    simp only [nonZero, reads_star_set_iff, mem_range, isNonZero]
  constructor
  · rintro ⟨u, _, ks, ns, ⟨hu, rfl⟩, ⟨_, x, _, _, ⟨_, y, _, _, ⟨⟨c, rfl, hc⟩, rfl⟩, hy, rfl, rfl⟩,
      ⟨hx, rfl⟩, rfl, rfl⟩, rfl, rfl⟩
    obtain ⟨hz, rfl⟩ := many.mp hy
    refine ⟨⟨fun d hd => ?_, c, by simp, hc⟩, rfl⟩
    simp only [List.mem_append, List.mem_singleton] at hd
    rcases hd with hd | (rfl | hd) | hd
    exacts [hu d hd, isDigit_of_isNonZero hc, isDigit_of_isNonZero (hz d hd), hx d hd]
  · rintro ⟨⟨hw, c, hc, hc'⟩, rfl⟩
    obtain ⟨u, v, rfl⟩ := List.append_of_mem hc
    refine ⟨u, c :: v, [], [], ⟨fun d hd => hw d (by simp [hd]), rfl⟩,
      ⟨[c], v, [], [], ⟨[c], [], [], [], ⟨⟨c, rfl, hc'⟩, rfl⟩, ?_, rfl, rfl⟩, ⟨fun d hd => hw d ?_, rfl⟩,
        rfl, rfl⟩, rfl, rfl⟩
    · exact .stop
    · simp [hd]

/-! ### Groups and their marks -/

/-- The marks of a group around `w` that holds no other. -/
def around (i pos : Nat) (w : List Char) : List (Mark × Nat) :=
  [(.closed i, pos + w.length), (.opened i, pos)]

theorem Plain.group {p : Pattern} {L : List Char → Prop} (h : Plain p L) {i : Nat} :
    Reads (.group i p) w pos ms ↔ L w ∧ ms = around i pos w := by
  simp only [reads_group_iff, h _ _ _, around]
  constructor
  · rintro ⟨ns, ⟨hw, rfl⟩, rfl⟩
    exact ⟨hw, rfl⟩
  · rintro ⟨hw, rfl⟩
    exact ⟨[], ⟨hw, rfl⟩, rfl⟩

theorem reads_suffix {i j : Nat} : Reads (suffix i j) w pos ms ↔
    ∃ f b, OptionalDigits f ∧ Block b ∧ w = f.getD [] ++ '\x7b' :: (b ++ ['\x7d', 'R']) ∧
      ms = around j (pos + (f.getD []).length + 1) b ++ (f.map (around i pos)).getD [] := by
  simp only [suffix, reads_cat_iff, reads_opt_iff, reads_char, plain_fraction.group,
    plain_block.group]
  constructor
  · rintro ⟨u, _, ks, _, hu, ⟨_, _, _, _, ⟨rfl, rfl⟩, ⟨b, _, _, _, ⟨hb, rfl⟩,
      ⟨_, _, _, _, ⟨rfl, rfl⟩, ⟨rfl, rfl⟩, rfl, rfl⟩, rfl, rfl⟩, rfl, rfl⟩, rfl, rfl⟩
    rcases hu with ⟨hu, rfl⟩ | ⟨rfl, rfl⟩
    · refine ⟨some u, b, ?_, hb, rfl, rfl⟩
      rintro ds ⟨⟩
      exact hu
    · exact ⟨none, b, nofun, hb, rfl, rfl⟩
  · rintro ⟨f, b, hf, hb, rfl, rfl⟩
    refine ⟨f.getD [], _, (f.map (around i pos)).getD [], _, ?_, ⟨['\x7b'], _, [], _, ⟨rfl, rfl⟩,
      ⟨b, _, _, [], ⟨hb, rfl⟩, ⟨['\x7d'], ['R'], [], [], ⟨rfl, rfl⟩, ⟨rfl, rfl⟩, rfl, rfl⟩, rfl, rfl⟩,
      rfl, rfl⟩, rfl, rfl⟩
    cases f with
    | none => exact .inr ⟨rfl, rfl⟩
    | some ds => exact .inl ⟨hf ds rfl, rfl⟩

/-- What follows a mantissa before the exponent. -/
theorem reads_mantissaFraction {i j : Nat} :
    Reads (.opt (.group i (.cat (char '.') (.group j fraction)))) w pos ms ↔
      ∃ f, OptionalDigits f ∧ w = (f.map ('.' :: ·)).getD [] ∧
        ms = (f.map fun ds => (.closed i, pos + ds.length + 1) ::
          (around j (pos + 1) ds ++ [(.opened i, pos)])).getD [] := by
  simp only [reads_opt_iff, reads_group_iff, reads_cat_iff, reads_char, plain_fraction.group]
  constructor
  · rintro (⟨_, ⟨_, ds, _, _, ⟨rfl, rfl⟩, ⟨hd, rfl⟩, rfl, rfl⟩, rfl⟩ | ⟨rfl, rfl⟩)
    · refine ⟨some ds, ?_, rfl, rfl⟩
      rintro _ ⟨⟩
      exact hd
    · exact ⟨none, nofun, rfl, rfl⟩
  · rintro ⟨f, hf, rfl, rfl⟩
    cases f with
    | none => exact .inr ⟨rfl, rfl⟩
    | some ds =>
      exact .inl ⟨_, ⟨['.'], ds, [], _, ⟨rfl, rfl⟩, ⟨hf ds rfl, rfl⟩, rfl, rfl⟩, rfl⟩

/-! ### Finding the parts again -/

/-- What a group captured in `text`, if it captured anything. -/
def taken (m : Cursor) (text : List Char) (i : Nat) : Option (List Char) :=
  ((m.group? i).map fun s => s.of text).filter fun cs => !cs.isEmpty

section
open NumberParts
variable {n i a stop : Nat} {m : Cursor} {text pre u post int b e : List Char}
  {f : Option (List Char)}

theorem taken_eq_some (h : m.group? i = some ⟨a, a + u.length⟩) (pre post : List Char)
    (ht : text = pre ++ (u ++ post)) (ha : pre.length = a) (hu : u ≠ []) :
    taken m text i = some u := by
  subst ht ha
  simp [taken, h, Span.of, Span.length, Option.filter_some, hu]

theorem taken_eq_option (h : m.group? i = f.map fun u => ⟨a, a + u.length⟩)
    (pre post : List Char) (ht : ∀ u, f = some u → text = pre ++ (u ++ post))
    (ha : pre.length = a) (hu : ∀ u, f = some u → u ≠ []) : taken m text i = f := by
  cases f with
  | none => simp [taken, h]
  | some u => exact taken_eq_some h pre post (ht u rfl) ha (hu u rfl)

/-- The parts depend on what the nineteen groups of a number captured and on nothing else. -/
theorem ofMatch_parts : ofMatch m text (parts n) =
    if (m.group? (n + 1)).isSome then (taken m text (n + 2)).map fun int =>
      ⟨.repeatingScientific, int, taken m text (n + 3), taken m text (n + 4), taken m text (n + 5)⟩
    else if (m.group? (n + 6)).isSome then (taken m text (n + 7)).map fun int =>
      ⟨.scientific, int, taken m text (n + 9), none, taken m text (n + 10)⟩
    else if (m.group? (n + 11)).isSome then (taken m text (n + 12)).map fun int =>
      ⟨.repeatingDecimal, int, taken m text (n + 13), taken m text (n + 14), none⟩
    else if (m.group? (n + 15)).isSome then (taken m text (n + 16)).map fun int =>
      ⟨.decimal, int, taken m text (n + 17), none, none⟩
    else if (m.group? (n + 18)).isSome then (taken m text (n + 19)).map fun int =>
      ⟨.integer, int, none, none, none⟩
    else none := by
  simp only [ofMatch, forms, List.find?, Cursor.part?]
  simp only [parts, Part.find?, captured, Cursor.part?]
  split_ifs <;> simp_all [taken, Option.map_eq_bind]

/-- The parts of what a form read are found again, and fit. -/
def Found (n : Nat) (w : List Char) (pos : Nat) (ms : List (Mark × Nat)) : Prop :=
  ∃ p : NumberParts, p.Fits ∧ p.entries.literal = w ∧ ∀ (m : Cursor) (pre post : List Char),
    m.marks = ms → pre.length = pos → ofMatch m (pre ++ (w ++ post)) (parts n) = some p

variable {w : List Char} {pos : Nat} {ms : List (Mark × Nat)}

theorem found_integer (h : Reads (.group (n + 18) (.group (n + 19) integer)) w pos ms) :
    Found n w pos ms := by
  obtain ⟨_, h', rfl⟩ := reads_group_iff.mp h
  obtain ⟨hw, rfl⟩ := plain_integer.group.mp h'
  refine ⟨⟨.integer, w, none, none, none⟩, ⟨hw, rfl, rfl, rfl⟩,
    by simp [literal_eq, fractionText, exponentText], ?_⟩
  rintro m pre post hm rfl
  obtain ⟨own, earlier⟩ := (Cursor.Shows.of_marks hm n).captured (k := 1) h (by decide) rfl
  have some19 : m.group? (n + 19) = some ⟨pre.length, pre.length + w.length⟩ := by
    simp [Cursor.group?, hm, around, lookup_cons_ite]
  rw [ofMatch_parts, earlier 1 (by decide), earlier 6 (by decide), earlier 11 (by decide),
    earlier 15 (by decide), own,
    taken_eq_some some19 pre post rfl rfl hw.ne_nil]
  rfl

theorem found_decimal (h : Reads (.group (n + 15) (decimal n)) w pos ms) : Found n w pos ms := by
  obtain ⟨_, h', rfl⟩ := reads_group_iff.mp h
  simp only [decimal, reads_cat_iff, reads_char, plain_wholePart.group, plain_fraction.group] at h'
  obtain ⟨int, _, _, _, ⟨hi, rfl⟩, ⟨_, u, _, _, ⟨rfl, rfl⟩, ⟨hu, rfl⟩, rfl, rfl⟩, rfl, rfl⟩ := h'
  refine ⟨⟨.decimal, int, some u, none, none⟩, ⟨hi, ⟨u, rfl, hu⟩, rfl, rfl⟩, ?_, ?_⟩
  · simp [literal_eq, fractionText, blockText, exponentText, hu.ne_nil]
  rintro m pre post hm rfl
  obtain ⟨own, earlier⟩ := (Cursor.Shows.of_marks hm n).captured (k := 2) h (by decide) rfl
  have some16 : m.group? (n + 16) = some ⟨pre.length, pre.length + int.length⟩ := by
    simp [Cursor.group?, hm, around, lookup_cons_ite]
  have some17 : m.group? (n + 17) =
      some ⟨pre.length + int.length + 1, pre.length + int.length + 1 + u.length⟩ := by
    simp [Cursor.group?, hm, around, lookup_cons_ite]
  rw [ofMatch_parts, earlier 1 (by decide), earlier 6 (by decide), earlier 11 (by decide), own,
    taken_eq_some some16 pre ('.' :: u ++ post) (by simp) rfl hi.ne_nil,
    taken_eq_some some17 (pre ++ int ++ ['.']) post (by simp) (by simp; omega)
      hu.ne_nil]
  rfl

theorem found_repeatingDecimal (h : Reads (.group (n + 11) (repeatingDecimal n)) w pos ms) :
    Found n w pos ms := by
  obtain ⟨_, h', rfl⟩ := reads_group_iff.mp h
  simp only [repeatingDecimal, reads_cat_iff, reads_char, plain_wholePart.group,
    reads_suffix] at h'
  obtain ⟨int, _, _, _, ⟨hi, rfl⟩, ⟨_, _, _, _, ⟨rfl, rfl⟩, ⟨f, b, hf, hb, rfl, rfl⟩, rfl, rfl⟩,
    rfl, rfl⟩ := h'
  refine ⟨⟨.repeatingDecimal, int, f, some b, none⟩, ⟨hi, hf, ⟨b, rfl, hb⟩, rfl⟩, ?_, ?_⟩
  · simp [literal_eq, fractionText, blockText, exponentText, hb.ne_nil]
  rintro m pre post hm rfl
  obtain ⟨own, earlier⟩ := (Cursor.Shows.of_marks hm n).captured (k := 3) h (by decide) rfl
  have some12 : m.group? (n + 12) = some ⟨pre.length, pre.length + int.length⟩ := by
    cases f <;> simp [Cursor.group?, hm, around, lookup_cons_ite]
  have some13 : m.group? (n + 13) = f.map fun u =>
      ⟨pre.length + int.length + 1, pre.length + int.length + 1 + u.length⟩ := by
    cases f <;> simp [Cursor.group?, hm, around, lookup_cons_ite]
  have some14 : m.group? (n + 14) =
      some ⟨pre.length + int.length + 1 + (f.getD []).length + 1,
        pre.length + int.length + 1 + (f.getD []).length + 1 + b.length⟩ := by
    cases f <;> simp [Cursor.group?, hm, around, lookup_cons_ite]
  rw [ofMatch_parts, earlier 1 (by decide), earlier 6 (by decide), own,
    taken_eq_some some12 pre ('.' :: (f.getD [] ++ '\x7b' :: (b ++ ['\x7d', 'R'])) ++ post) (by simp)
      rfl hi.ne_nil,
    taken_eq_option some13 (pre ++ int ++ ['.']) ('\x7b' :: (b ++ ['\x7d', 'R']) ++ post)
      (by rintro u rfl; simp) (by simp; omega) fun u hu => (hf u hu).ne_nil,
    taken_eq_some some14 (pre ++ int ++ ['.'] ++ f.getD [] ++ ['\x7b']) (['\x7d', 'R'] ++ post)
      (by simp) (by simp; omega) hb.ne_nil]
  rfl

theorem found_scientific (h : Reads (.group (n + 6) (scientific n)) w pos ms) :
    Found n w pos ms := by
  obtain ⟨_, h', rfl⟩ := reads_group_iff.mp h
  simp only [scientific, reads_cat_iff, reads_char, plain_mantissa.group, plain_integer.group,
    reads_mantissaFraction] at h'
  obtain ⟨int, _, _, _, ⟨hi, rfl⟩, ⟨_, _, _, _, ⟨f, hf, rfl, rfl⟩, ⟨_, e, _, _, ⟨rfl, rfl⟩, ⟨he, rfl⟩,
    rfl, rfl⟩, rfl, rfl⟩, rfl, rfl⟩ := h'
  have hu (u : List Char) (hu : f = some u) : u ≠ [] := (hf u hu).ne_nil
  refine ⟨⟨.scientific, int, f, none, some e⟩, ⟨hi, hf, rfl, e, rfl, he⟩, ?_, ?_⟩
  · cases f with
    | none => simp [literal_eq, fractionText, exponentText]
    | some u => simp [literal_eq, fractionText, blockText, exponentText, hu u rfl]
  rintro m pre post hm rfl
  obtain ⟨own, earlier⟩ := (Cursor.Shows.of_marks hm n).captured (k := 4) h (by decide) rfl
  have some7 : m.group? (n + 7) = some ⟨pre.length, pre.length + int.length⟩ := by
    cases f <;> simp [Cursor.group?, hm, around, lookup_cons_ite]
  have some9 : m.group? (n + 9) = f.map fun u =>
      ⟨pre.length + int.length + 1, pre.length + int.length + 1 + u.length⟩ := by
    cases f <;> simp [Cursor.group?, hm, around, lookup_cons_ite]
  have some10 : m.group? (n + 10) =
      some ⟨pre.length + int.length + ((f.map ('.' :: ·)).getD []).length + 1,
        pre.length + int.length + ((f.map ('.' :: ·)).getD []).length + 1 + e.length⟩ := by
    cases f <;> simp [Cursor.group?, hm, around, lookup_cons_ite]
  rw [ofMatch_parts, earlier 1 (by decide), own,
    taken_eq_some some7 pre ((f.map ('.' :: ·)).getD [] ++ 'E' :: e ++ post) (by simp) rfl
      hi.ne_nil,
    taken_eq_option some9 (pre ++ int ++ ['.']) ('E' :: e ++ post) (by rintro u rfl; simp)
      (by simp; omega) hu,
    taken_eq_some some10 (pre ++ int ++ (f.map ('.' :: ·)).getD [] ++ ['E']) post (by simp)
      (by simp; omega) he.ne_nil]
  rfl

theorem found_repeatingScientific
    (h : Reads (.group (n + 1) (repeatingScientific n)) w pos ms) : Found n w pos ms := by
  obtain ⟨_, h', rfl⟩ := reads_group_iff.mp h
  simp only [repeatingScientific, reads_cat_iff, reads_char, plain_mantissa.group,
    plain_integer.group, reads_suffix] at h'
  obtain ⟨int, _, _, _, ⟨hi, rfl⟩, ⟨_, _, _, _, ⟨rfl, rfl⟩, ⟨_, _, _, _, ⟨f, b, hf, hb, rfl, rfl⟩,
    ⟨_, e, _, _, ⟨rfl, rfl⟩, ⟨he, rfl⟩, rfl, rfl⟩, rfl, rfl⟩, rfl, rfl⟩, rfl, rfl⟩ := h'
  refine ⟨⟨.repeatingScientific, int, f, some b, some e⟩, ⟨hi, hf, ⟨b, rfl, hb⟩, e, rfl, he⟩, ?_, ?_⟩
  · simp [literal_eq, fractionText, blockText, exponentText, hb.ne_nil]
  rintro m pre post hm rfl
  obtain ⟨own, -⟩ := (Cursor.Shows.of_marks hm n).captured (k := 4) h (by decide) rfl
  have some2 : m.group? (n + 2) = some ⟨pre.length, pre.length + int.length⟩ := by
    cases f <;> simp [Cursor.group?, hm, around, lookup_cons_ite]
  have some3 : m.group? (n + 3) = f.map fun u =>
      ⟨pre.length + int.length + 1, pre.length + int.length + 1 + u.length⟩ := by
    cases f <;> simp [Cursor.group?, hm, around, lookup_cons_ite]
  have some4 : m.group? (n + 4) =
      some ⟨pre.length + int.length + 1 + (f.getD []).length + 1,
        pre.length + int.length + 1 + (f.getD []).length + 1 + b.length⟩ := by
    cases f <;> simp [Cursor.group?, hm, around, lookup_cons_ite]
  have some5 : m.group? (n + 5) =
      some ⟨pre.length + int.length + 1 + (f.getD [] ++ '\x7b' :: (b ++ ['\x7d', 'R'])).length + 1,
        pre.length + int.length + 1 + (f.getD [] ++ '\x7b' :: (b ++ ['\x7d', 'R'])).length + 1 +
          e.length⟩ := by
    cases f <;> simp [Cursor.group?, hm, around, lookup_cons_ite]
  rw [ofMatch_parts, own,
    taken_eq_some some2 pre
      ('.' :: (f.getD [] ++ '\x7b' :: (b ++ ['\x7d', 'R'])) ++ 'E' :: e ++ post) (by simp) rfl
      hi.ne_nil,
    taken_eq_option some3 (pre ++ int ++ ['.'])
      ('\x7b' :: (b ++ ['\x7d', 'R']) ++ 'E' :: e ++ post) (by rintro u rfl; simp) (by simp; omega)
      fun u hu => (hf u hu).ne_nil,
    taken_eq_some some4 (pre ++ int ++ ['.'] ++ f.getD [] ++ ['\x7b'])
      (['\x7d', 'R'] ++ 'E' :: e ++ post) (by simp) (by simp; omega) hb.ne_nil,
    taken_eq_some some5 (pre ++ int ++ ['.'] ++ (f.getD [] ++ '\x7b' :: (b ++ ['\x7d', 'R'])) ++ ['E'])
      post (by simp) (by simp; omega) he.ne_nil]
  rfl

/-- What is read as a number is a literal, and the marks tell its parts. -/
theorem found_of_reads (h : Reads (pattern n) w pos ms) : Found n w pos ms := by
  simp only [pattern, reads_alt_iff] at h
  rcases h with h | h | h | h | h
  exacts [found_repeatingScientific h, found_scientific h, found_repeatingDecimal h,
    found_decimal h, found_integer h]

end

/-! ### One choice of parts for a text -/

section
open NumberParts
variable {p q : NumberParts}

theorem reads_of_fits (h : p.Fits) (n pos : Nat) :
    ∃ ms, Reads (pattern n) p.entries.literal pos ms := by
  rw [literal_eq, fractionText, blockText, exponentText]
  obtain ⟨form, int, f, b, e⟩ := p
  have point (pos : Nat) : Reads (char '.') ['.'] pos [] := reads_char.mpr ⟨rfl, rfl⟩
  have ten (pos : Nat) : Reads (char 'E') ['E'] pos [] := reads_char.mpr ⟨rfl, rfl⟩
  cases form <;> simp only [Fits] at h
  case integer =>
    obtain ⟨hi, rfl, rfl, rfl⟩ := h
    simp only [Option.getD_none, Option.map_none, and_self, if_true, List.append_nil]
    exact ⟨_, .right (.right (.right (.right (.group (plain_integer.group.mpr ⟨hi, rfl⟩)))))⟩
  case decimal =>
    obtain ⟨hi, ⟨u, rfl, hu⟩, rfl, rfl⟩ := h
    simp only [Option.getD_some, hu.ne_nil, Option.getD_none, Option.map_none,
      false_and, if_false, if_true, List.append_nil]
    exact ⟨_, .right (.right (.right (.left (.group (.cat (plain_wholePart.group.mpr ⟨hi, rfl⟩)
      (.cat (point _) (plain_fraction.group.mpr ⟨hu, rfl⟩)))))))⟩
  case repeatingDecimal =>
    obtain ⟨hi, hf, ⟨u, rfl, hu⟩, rfl⟩ := h
    simp only [Option.getD_some, hu.ne_nil, Option.getD_none, Option.map_none,
      and_false, if_false, List.append_nil]
    exact ⟨_, .right (.right (.left (.group (.cat (plain_wholePart.group.mpr ⟨hi, rfl⟩)
      (.cat (point _) (reads_suffix.mpr ⟨f, u, hf, hu, rfl, rfl⟩))))))⟩
  case scientific =>
    obtain ⟨hi, hf, rfl, u, rfl, hu⟩ := h
    refine ⟨_, .right (.left (.group (.cat (plain_mantissa.group.mpr ⟨hi, rfl⟩)
      (.cat (reads_mantissaFraction.mpr ⟨f, hf, ?_, rfl⟩)
        (.cat (ten _) (plain_integer.group.mpr ⟨hu, rfl⟩))))))⟩
    cases f with
    | none => simp
    | some ds => simp [(hf ds rfl).ne_nil]
  case repeatingScientific =>
    obtain ⟨hi, hf, ⟨u, rfl, hu⟩, v, rfl, hv⟩ := h
    simp only [Option.getD_some, hu.ne_nil, Option.map_some, and_false, if_false,
      List.cons_append]
    exact ⟨_, .left (.group (.cat (plain_mantissa.group.mpr ⟨hi, rfl⟩) (.cat (point _)
      (.cat (reads_suffix.mpr ⟨f, u, hf, hu, rfl, rfl⟩)
        (.cat (ten _) (plain_integer.group.mpr ⟨hv, rfl⟩))))))⟩

end

theorem ofLiteral_eq (w : List Char) : NumberParts.ofLiteral w =
    (((pattern 0).outcomes (.ofText w)).find? fun c => c.rest.isEmpty).bind fun m =>
      NumberParts.ofMatch m w (parts 0) := by
  rw [NumberParts.ofLiteral, Component.matchAll_eq, matchAll_eq_find?, anyNumber_component.1,
    anyNumber_component.2]
  rfl

/-- Taking a literal apart is the inverse of writing it. -/
theorem ofLiteral_eq_some_iff {p : NumberParts} {w : List Char} :
    NumberParts.ofLiteral w = some p ↔ p.Fits ∧ p.entries.literal = w := by
  rw [ofLiteral_eq]
  -- whatever match of all of `w` comes first, it finds parts that fit and write `w`
  have found {w : List Char} {m : Cursor} (hm : m ∈ (pattern 0).outcomes (.ofText w))
      (hr : m.rest = []) : ∃ q : NumberParts, q.Fits ∧ q.entries.literal = w ∧
      NumberParts.ofMatch m w (parts 0) = some q := by
    obtain ⟨u, ms, hu, hc⟩ := reads_of_mem_outcomes (pattern_free 0) hm
    obtain rfl : w = u := by simpa [hr, Cursor.ofText] using hc.rest
    obtain ⟨q, hq, hl, hf⟩ := found_of_reads hu
    refine ⟨q, hq, hl, ?_⟩
    simpa using hf m [] [] (by simpa [Cursor.ofText] using hc.marks) rfl
  constructor
  · intro h
    obtain ⟨m, hm, hp⟩ := Option.bind_eq_some_iff.mp h
    obtain ⟨q, hq, hl, hf⟩ := found (List.mem_of_find?_eq_some hm)
      (by simpa using List.find?_some hm)
    obtain rfl : p = q := Option.some.inj (hp.symm.trans hf)
    exact ⟨hq, hl⟩
  · rintro ⟨hp, rfl⟩
    obtain ⟨ms, hms⟩ := reads_of_fits hp 0 0
    have all : (⟨[], p.entries.literal.length, ms⟩ : Cursor) ∈
        (pattern 0).outcomes (.ofText p.entries.literal) :=
      mem_outcomes_of_reads hms rfl
        ⟨(List.append_nil _).symm, (Nat.zero_add _).symm, (List.append_nil ms).symm⟩
    cases hm : ((pattern 0).outcomes (.ofText p.entries.literal)).find? fun c => c.rest.isEmpty with
    | none => exact absurd rfl (List.find?_eq_none.mp hm _ all)
    | some m =>
      obtain ⟨q, hq, hl, hf⟩ := found (List.mem_of_find?_eq_some hm)
        (by simpa using List.find?_some hm)
      rw [Option.bind_some, hf, NumberParts.literal_injective hq hp hl]

end Numeral

end Reckon
