import Mathlib
import Reckon.Formula.Content
import Reckon.Proofs.Munch
import Reckon.Proofs.Operand

/-!
# What the grammar takes for an operation

The pattern of an operand reads what is spelled as one (`Operand.exists_reads`,
`Operand.found_of_reads`), the longest first (`Operand.greedy_pattern`), so the preferred match of
an operand that may be negated is the longest there is (`Unary.longest_of_head`). Like a number, an
operand is found again from the groups behind its own, whatever was marked around it.
-/

namespace Reckon

open Pattern

/-! ### The patterns -/

namespace Operand

def namePattern : Pattern :=
  .cat (.set ⟨false, [('a', 'z'), ('A', 'Z'), ('_', '_')]⟩)
    (.star (.set ⟨false, [('a', 'z'), ('A', 'Z'), ('_', '_'), ('0', '9')]⟩))

def placeholders : Pattern := .plus (Numeral.char '$')

def callPattern (n : Nat) : Pattern :=
  .cat (.group (n + 3) namePattern) (.group (n + 4) placeholders)

/-- All operands, where `n` groups open before. -/
def pattern (n : Nat) : Pattern :=
  .alt (.group (n + 1) (Numeral.char '$'))
    (.alt (.group (n + 2) (callPattern n))
      (.alt (.group (n + 5) namePattern) (.group (n + 6) (Numeral.pattern (n + 6)))))

/-- The names of the groups of `pattern n`. -/
def parts (n : Nat) : List Part :=
  [⟨.subExpression, n + 1, []⟩,
    ⟨.functionCall, n + 2, [⟨.functionName, n + 3, []⟩, ⟨.functionArguments, n + 4, []⟩]⟩,
    ⟨.variableName, n + 5, []⟩, ⟨.number, n + 6, Numeral.parts (n + 6)⟩]

end Operand

namespace Unary

/-- An operand that may be negated, where `n` groups open before. -/
def pattern (n : Nat) : Pattern :=
  .cat (.opt (.group (n + 1) (Numeral.char '-'))) (.group (n + 2) (Operand.pattern (n + 2)))

def parts (n : Nat) : List Part :=
  [⟨.negation, n + 1, []⟩, ⟨.operand, n + 2, Operand.parts (n + 2)⟩]

theorem unaryOperation_component : Form.unaryOperation.component.pattern = pattern 0 ∧
    Form.unaryOperation.component.parts = parts 0 := by
  decide +kernel

end Unary

namespace Pairs

def operatorPattern : Pattern :=
  .set ⟨false, [('-', '-'), ('+', '+'), ('*', '*'), ('/', '/'), ('^', '^')]⟩

def pattern : Pattern := .cat (.group 1 operatorPattern) (.group 2 (Unary.pattern 2))

def parts : List Part := [⟨.binaryOperator, 1, []⟩, ⟨.unaryOperation, 2, Unary.parts 2⟩]

theorem binaryOperation_component : Form.binaryOperation.component.pattern = pattern ∧
    Form.binaryOperation.component.parts = parts := by
  decide +kernel

end Pairs

/-! ### What they read -/

namespace Operand

open Notation Numeral

variable {n pos : Nat} {w : List Char} {ms : List (Mark × Nat)} {c m : Cursor}

theorem plain_namePattern : Plain namePattern Name := by
  have start (x : Char) : (⟨false, [('a', 'z'), ('A', 'Z'), ('_', '_')]⟩ : CharSet).mem x ↔
      isNameStart x := by
    have : ('_' ≤ x ∧ x ≤ '_') ↔ x = '_' := ⟨fun h => le_antisymm h.2 h.1, fun h => ⟨h.ge, h.le⟩⟩
    simp [CharSet.mem, isNameStart, this, or_assoc]
  have part (x : Char) :
      (⟨false, [('a', 'z'), ('A', 'Z'), ('_', '_'), ('0', '9')]⟩ : CharSet).mem x ↔
        isNamePart x := by
    rw [isNamePart, Bool.or_eq_true, ← start]
    simp [CharSet.mem, isDigit, or_assoc]
  intro w pos ms
  simp only [namePattern, reads_cat_iff, reads_set_iff, reads_star_set_iff, start, part]
  constructor
  · rintro ⟨_, v, _, _, ⟨x, hx, rfl, rfl⟩, ⟨hv, rfl⟩, rfl, rfl⟩
    exact ⟨⟨hx, hv⟩, rfl⟩
  · rintro ⟨hw, rfl⟩
    cases w with
    | nil => cases hw
    | cons x v => exact ⟨[x], v, [], [], ⟨x, hw.1, rfl, rfl⟩, ⟨hw.2, rfl⟩, rfl, rfl⟩

theorem plain_placeholders :
    Plain placeholders fun w => ∃ k, w = List.replicate (k + 1) Reckon.placeholder := by
  intro w pos ms
  simp only [placeholders, Numeral.char, reads_plus_iff, reads_cat_iff, reads_set_iff,
    reads_star_set_iff, mem_single]
  constructor
  · rintro ⟨_, v, _, _, ⟨x, rfl, rfl, rfl⟩, ⟨hv, rfl⟩, rfl, rfl⟩
    exact ⟨⟨v.length, congrArg _ (List.eq_replicate_of_mem hv)⟩, rfl⟩
  · rintro ⟨⟨k, rfl⟩, rfl⟩
    exact ⟨[Reckon.placeholder], List.replicate k Reckon.placeholder, [], [], ⟨_, rfl, rfl, rfl⟩,
      ⟨fun x => List.eq_of_mem_replicate, rfl⟩, rfl, rfl⟩

end Operand

theorem Step.operandOf_eq (m : Cursor) (text : List Char) (i j n : Nat) :
    Step.operandOf m text [⟨.negation, i, []⟩, ⟨.operand, j, Operand.parts n⟩] =
      if (m.group? (n + 1)).isSome then .ok .placeholder
      else
        match m.group? (n + 3), m.group? (n + 5) with
        | some name, _ => .ok (.call (name.of text) (((m.group? (n + 4)).map Span.length).getD 0))
        | none, some name => .ok (.var (name.of text))
        | none, none => .ok (.number (((m.group? (n + 6)).map fun s => s.of text).getD [])
            (NumberParts.ofMatch m text (Numeral.parts (n + 6)))) := by
  simp [Step.operandOf, Cursor.part?, Part.find?, Operand.parts]
  cases m.group? (n + 3) <;> cases m.group? (n + 5) <;> rfl

namespace Numeral

open NumberParts

variable {n pos : Nat} {w text : List Char} {ms : List (Mark × Nat)} {m : Cursor}

theorem ofMatch_congr (h : m.Shows n ms) :
    ofMatch m text (parts n) = ofMatch ⟨[], 0, ms⟩ text (parts n) := by
  have group {i : Nat} (hi : n < i) : m.group? i = (⟨[], 0, ms⟩ : Cursor).group? i := h i hi
  have taken {i : Nat} (hi : n < i) : taken m text i = taken ⟨[], 0, ms⟩ text i := by
    rw [Numeral.taken, Numeral.taken, h i hi]
  rw [ofMatch_parts, ofMatch_parts]
  simp (disch := omega) only [group, taken]

end Numeral

namespace Operand

open Notation Numeral

variable {n pos : Nat} {w : List Char} {ms : List (Mark × Nat)} {c m : Cursor}

/-- What is read as an operand is one, and the marks tell which. -/
def Found (n : Nat) (w : List Char) (pos : Nat) (ms : List (Mark × Nat)) : Prop :=
  ∃ x : Operand, x.Spelled w ∧ ∀ (m : Cursor) (pre post : List Char) (i j : Nat), m.Shows n ms →
    pre.length = pos →
      Step.operandOf m (pre ++ (w ++ post)) [⟨.negation, i, []⟩, ⟨.operand, j, parts n⟩] = .ok x

theorem of_between (pre w post : List Char) :
    (⟨pre.length, pre.length + w.length⟩ : Span).of (pre ++ (w ++ post)) = w := by
  simp [Span.of, Span.length]

theorem found_placeholder (h : Reads (.group (n + 1) (Numeral.char '$')) w pos ms) :
    Found n w pos ms := by
  obtain ⟨rfl, -⟩ := (plain_char '$').group.mp h
  refine ⟨.placeholder, .group, ?_⟩
  rintro m pre post i j hm rfl
  obtain ⟨own, -⟩ := hm.captured (k := 0) h (by decide) rfl
  rw [Step.operandOf_eq, own, Option.isSome_some, if_pos rfl]

theorem found_call (h : Reads (.group (n + 2) (callPattern n)) w pos ms) : Found n w pos ms := by
  obtain ⟨_, h', rfl⟩ := reads_group_iff.mp h
  simp only [callPattern, reads_cat_iff, plain_namePattern.group, plain_placeholders.group] at h'
  obtain ⟨name, _, _, _, ⟨hn, rfl⟩, ⟨⟨k, rfl⟩, rfl⟩, rfl, rfl⟩ := h'
  refine ⟨.call name (k + 1), .call hn, ?_⟩
  rintro m pre post i j hm rfl
  obtain ⟨-, earlier⟩ := hm.captured (k := 2) h (by decide) rfl
  have some3 : m.group? (n + 3) = some ⟨pre.length, pre.length + name.length⟩ := by
    rw [hm _ (by omega)]
    simp [Cursor.group?, around, lookup_cons_ite]
  have some4 : m.group? (n + 4) =
      some ⟨pre.length + name.length, pre.length + name.length + (k + 1)⟩ := by
    rw [hm _ (by omega)]
    simp [Cursor.group?, around, lookup_cons_ite]
  rw [Step.operandOf_eq, earlier 1 (by decide), some3, some4, List.append_assoc]
  simp [of_between, Span.length]

theorem found_var (h : Reads (.group (n + 5) namePattern) w pos ms) : Found n w pos ms := by
  refine ⟨.var w, .var (plain_namePattern.group.mp h).1, ?_⟩
  rintro m pre post i j hm rfl
  obtain ⟨own, earlier⟩ := hm.captured (k := 0) h (by decide) rfl
  rw [Step.operandOf_eq, earlier 1 (by decide), earlier 3 (by decide), own]
  simp [of_between]

theorem found_number (h : Reads (.group (n + 6) (Numeral.pattern (n + 6))) w pos ms) :
    Found n w pos ms := by
  obtain ⟨ns, h', rfl⟩ := reads_group_iff.mp h
  obtain ⟨p, hp, rfl, hf⟩ := Numeral.found_of_reads h'
  refine ⟨.number p.entries.literal (some p), .number hp, ?_⟩
  rintro m pre post i j hm rfl
  obtain ⟨own, earlier⟩ := hm.captured (k := 19) h (by decide) rfl
  have inner : m.Shows (n + 6) ns := hm.inside (by omega) (List.forall_mem_nil _)
  rw [Step.operandOf_eq, earlier 1 (by decide), earlier 3 (by decide), earlier 5 (by decide), own,
    ofMatch_congr inner, hf ⟨[], 0, ns⟩ pre post rfl rfl]
  simp [of_between]

theorem found_of_reads (h : Reads (pattern n) w pos ms) : Found n w pos ms := by
  simp only [pattern, reads_alt_iff] at h
  rcases h with h | h | h | h
  exacts [found_placeholder h, found_call h, found_var h, found_number h]

theorem exists_reads {x : Operand} (h : x.Spelled w) (n pos : Nat) :
    ∃ ms, Reads (pattern n) w pos ms := by
  cases h with
  | group => exact ⟨_, .left ((plain_char '$').group.mpr ⟨rfl, rfl⟩)⟩
  | call h =>
    exact ⟨_, .right (.left (.group (.cat (plain_namePattern.group.mpr ⟨h, rfl⟩)
      (plain_placeholders.group.mpr ⟨⟨_, rfl⟩, rfl⟩))))⟩
  | var h => exact ⟨_, .right (.right (.left (plain_namePattern.group.mpr ⟨h, rfl⟩)))⟩
  | number h =>
    obtain ⟨ms, hms⟩ := reads_of_fits h (n + 6) pos
    exact ⟨_, .right (.right (.right (.group hms)))⟩

/-! ### The longest operand -/

theorem greedy_namePattern (c : Cursor) : namePattern.Greedy c :=
  greedy_set_cat fun d => greedy_star_set _ d

theorem greedy_placeholders (c : Cursor) : placeholders.Greedy c := by
  have h : (cat (Numeral.char '$') (star (Numeral.char '$'))).Greedy c :=
    greedy_set_cat fun d => greedy_star_set _ d
  rwa [Greedy, ← outcomes_plus] at h

theorem starts_placeholders : placeholders.Starts (· = '$') :=
  plain_placeholders.starts fun _ ⟨_, hw⟩ => ⟨_, _, hw, rfl⟩

theorem starts_namePattern : namePattern.Starts fun x => isNameStart x :=
  plain_namePattern.starts fun w hw => by
    cases w with
    | nil => cases hw
    | cons x v => exact ⟨x, v, rfl, hw.1⟩

theorem avoids_namePattern : namePattern.Avoids (· = '$') :=
  plain_namePattern.avoids fun _ hw x hx hq => by
    have := hw.isNamePart x hx
    rw [hq] at this
    exact absurd this (by decide)

theorem starts_number (n : Nat) : (Numeral.pattern n).Starts fun x => isSigned x := by
  intro w pos ms h
  obtain ⟨p, hp, rfl, _⟩ := Numeral.found_of_reads h
  exact hp.literal_starts

theorem avoids_number (n : Nat) : (Numeral.pattern n).Avoids (· = '$') := by
  rintro w pos ms h x hx rfl
  obtain ⟨p, hp, rfl, _⟩ := Numeral.found_of_reads h
  rcases hp.mem_literal hx with hx | hx <;> exact absurd hx (by decide)

theorem greedy_callPattern (n : Nat) (c : Cursor) : (callPattern n).Greedy c :=
  greedy_cat rfl rfl (greedy_group (greedy_namePattern _))
    (fun _ _ => greedy_group (greedy_placeholders _)) avoids_namePattern.group
    starts_placeholders.group

theorem greedy_pattern (n : Nat) (hc : '\x7b' ∉ c.rest) : (pattern n).Greedy c := by
  have number : (group (n + 6) (Numeral.pattern (n + 6))).Greedy c :=
    greedy_group (Numeral.greedy_pattern (n + 6) hc)
  have word : (alt (group (n + 5) namePattern) (group (n + 6) (Numeral.pattern (n + 6)))).Greedy c :=
    greedy_alt_starts rfl rfl (greedy_group (greedy_namePattern _)) number starts_namePattern.group
      ((starts_number _).group.mono fun _ hs hn => not_isSigned hn hs)
  have call : (alt (group (n + 2) (callPattern n))
      (alt (group (n + 5) namePattern) (group (n + 6) (Numeral.pattern (n + 6))))).Greedy c :=
    greedy_alt_mem rfl rfl (greedy_group (greedy_callPattern n _)) word
      (Has.right starts_placeholders.has.group).group
      (avoids_namePattern.group.alt (avoids_number _).group)
  refine greedy_alt_starts rfl rfl (greedy_group (greedy_set _ _)) call (starts_char '$').group ?_
  refine (starts_namePattern.group.cat.group.mono ?_).alt
    ((starts_namePattern.group.mono ?_).alt ((starts_number _).group.mono ?_))
  all_goals
    rintro x hx rfl
    exact absurd hx (by decide)

theorem length_le_of_head {i : Nat} {x : Operand} {v t : List Char} (hc : '\x7b' ∉ c.rest)
    (hm : ((group i (pattern n)).outcomes c).head? = some m) (hx : x.Spelled v)
    (hv : c.rest = v ++ t) : c.pos + v.length ≤ m.pos := by
  obtain ⟨ms, hms⟩ := exists_reads hx n c.pos
  exact (greedy_group (greedy_pattern n hc)).head hm (hms.group.mem_outcomes hv)

theorem not_spelled_of_nil {i : Nat} {x : Operand} {v t : List Char}
    (hc : (group i (pattern n)).outcomes c = []) (hv : c.rest = v ++ t) : ¬ x.Spelled v := by
  intro hx
  obtain ⟨ms, hms⟩ := exists_reads hx n c.pos
  exact List.not_mem_nil (hc ▸ hms.group.mem_outcomes hv)

theorem groups_pattern (n : Nat) : (pattern n).groups = (List.range' 1 25).map (n + ·) := rfl

end Operand

/-! ### Negated operands -/

namespace Unary

variable {n pos : Nat} {g : Bool} {x : Operand} {u w : List Char} {ms ns : List (Mark × Nat)}
  {c d m : Cursor}

/-- A match with these marks gives the step of the operand. -/
def Told (n pos : Nat) (g : Bool) (x : Operand) (w : List Char) (ms : List (Mark × Nat)) : Prop :=
  ∀ (m : Cursor) (pre post : List Char) (offset : Nat) (o : Option Operator), m.Shows n ms →
    pre.length = pos →
      Step.ofMatch m (pre ++ (w ++ post)) (parts n) offset o = .ok ⟨o, g, x, offset + (pos + g.toNat)⟩

def sign (g : Bool) : List Char := if g then [minusSign] else []

def signMarks (n pos : Nat) (g : Bool) : List (Mark × Nat) :=
  if g then Numeral.around (n + 1) pos [minusSign] else []

theorem length_sign (g : Bool) : (sign g).length = g.toNat := by cases g <;> rfl

theorem ofMatch_eq {text : List Char} {o : Option Operator} {offset : Nat}
    (h : Step.operandOf m text (parts n) = .ok x) :
    Step.ofMatch m text (parts n) offset o = .ok ⟨o, (m.group? (n + 1)).isSome, x,
      offset + ((m.group? (n + 2)).map Span.start).getD 0⟩ := by
  simp only [Step.ofMatch, h]
  rfl

theorem told (h : Reads (group (n + 2) (Operand.pattern (n + 2))) u (pos + g.toNat) ns) :
    ∃ x : Operand, x.Spelled u ∧ Told n pos g x (sign g ++ u) (ns ++ signMarks n pos g) := by
  obtain ⟨ks, hk, rfl⟩ := reads_group_iff.mp h
  obtain ⟨x, hx, hf⟩ := Operand.found_of_reads hk
  refine ⟨x, hx, ?_⟩
  rintro m pre post offset o hm rfl
  have early {i : Nat} (hi : i ≤ n + 2) : ks.lookup (.opened i) = none :=
    hk.lookup_eq_none (Operand.groups_pattern (n + 2)) (Nat.lt_succ_of_le hi)
  have operand : (m.group? (n + 2)).map Span.start = some (pre.length + g.toNat) := by
    rw [hm _ (by omega)]
    simp [Cursor.group?, lookup_cons_ite, List.lookup_append, early]
  have negation : (m.group? (n + 1)).isSome = g := by
    rw [hm _ (by omega)]
    cases g <;>
      simp [Cursor.group?, lookup_cons_ite, List.lookup_append, early, signMarks, Numeral.around]
  have inner : m.Shows (n + 2) ks := by
    rw [List.cons_append, List.append_assoc] at hm
    refine hm.inside (by omega) ?_
    cases g <;> simp [Mark.index, signMarks, Numeral.around]
  have hop : Step.operandOf m (pre ++ (sign g ++ u ++ post)) (parts n) = .ok x := by
    have := hf m (pre ++ sign g) post (n + 1) (n + 2) inner (by rw [List.length_append, length_sign])
    rw [List.append_assoc] at this ⊢
    exact this
  rw [ofMatch_eq hop, negation, operand]
  rfl

theorem exists_reads (h : Unary g x w) (n pos : Nat) : ∃ ms, Reads (pattern n) w pos ms := by
  cases h with
  | negated h =>
    obtain ⟨ms, hms⟩ := Operand.exists_reads h (n + 2) (pos + 1)
    exact ⟨_, .cat (.take ((Numeral.plain_char '-').group.mpr ⟨rfl, rfl⟩)) (.group hms)⟩
  | plain h _ =>
    obtain ⟨ms, hms⟩ := Operand.exists_reads h (n + 2) pos
    exact ⟨_, .cat .skip (.group hms)⟩

theorem groups_pattern (n : Nat) : (pattern n).groups = (List.range' 1 27).map (n + ·) := rfl

/-- `w` is the longest start of `text` that is an operand, possibly negated. -/
structure Longest (g : Bool) (x : Operand) (w text : List Char) : Prop where
  unary : Unary g x w
  longest : ∀ (g' : Bool) (x' : Operand) (w' t : List Char), text = w' ++ t → Unary g' x' w' →
    w'.length ≤ w.length

theorem not_unary_of_nil (h : (pattern n).outcomes c = []) {t : List Char} (hw : c.rest = w ++ t) :
    ¬ Unary g x w := by
  intro hx
  obtain ⟨ms, hms⟩ := exists_reads hx n c.pos
  exact List.not_mem_nil (h ▸ hms.mem_outcomes hw)

/-- Behind a minus sign. -/
theorem longest_of_minus (hd : c.Passes [minusSign] (signMarks n c.pos true) d)
    (hc : '\x7b' ∉ c.rest)
    (hm : ((group (n + 2) (Operand.pattern (n + 2))).outcomes d).head? = some m) :
    ∃ g x w ms, Longest g x w c.rest ∧ c.Passes w ms m ∧ Reads (pattern n) w c.pos ms ∧
      Told n c.pos g x w ms := by
  obtain ⟨u, ns, hu, hp⟩ := reads_of_mem_outcomes rfl (List.mem_of_head? hm)
  have hpos : d.pos = c.pos + true.toNat := hd.pos
  rw [hpos] at hu
  obtain ⟨x, hx, hs⟩ := told hu
  have sign : Reads (opt (group (n + 1) (Numeral.char '-'))) [minusSign] c.pos
      (signMarks n c.pos true) := .take ((Numeral.plain_char '-').group.mpr ⟨rfl, rfl⟩)
  refine ⟨true, x, _, _, ⟨.negated hx, ?_⟩, hd.trans hp, .cat sign hu, hs⟩
  intro g' x' w' t' hw' hx'
  have hbrace : '\x7b' ∉ d.rest := fun h => hc (hd.rest ▸ List.mem_append_right _ h)
  obtain ⟨y, v, rfl⟩ := List.exists_cons_of_ne_nil hx'.ne_nil
  obtain ⟨rfl, hv⟩ := List.cons.inj (hd.rest.symm.trans hw')
  have := Operand.length_le_of_head hbrace hm hx'.minus.2 hv
  rw [hp.pos] at this
  simpa using this

/-- Where no operand stands behind a minus sign. -/
theorem longest_of_plain (hn : ∀ (v t : List Char) (y : Operand), c.rest = minusSign :: (v ++ t) →
    ¬ y.Spelled v) (hc : '\x7b' ∉ c.rest)
    (hm : ((group (n + 2) (Operand.pattern (n + 2))).outcomes c).head? = some m) :
    ∃ g x w ms, Longest g x w c.rest ∧ c.Passes w ms m ∧ Reads (pattern n) w c.pos ms ∧
      Told n c.pos g x w ms := by
  obtain ⟨u, ns, hu, hp⟩ := reads_of_mem_outcomes rfl (List.mem_of_head? hm)
  obtain ⟨x, hx, hs⟩ := told (g := false) hu
  have noMinus (v : List Char) (hv : u = minusSign :: v) : False := by
    obtain ⟨y, hy⟩ := Operand.Spelled.minus (hv ▸ hx)
    exact hn v m.rest y (by rw [hp.rest, hv]; rfl) hy
  refine ⟨false, x, u, ns ++ [], ⟨.plain hx fun y v hv _ => noMinus v hv, ?_⟩, ?_, .cat .skip hu, hs⟩
  · intro g' x' w' t' hw' hx'
    have hhead : w'.head? ≠ some minusSign := by
      intro h
      obtain ⟨v, rfl⟩ := List.head?_eq_some_iff.mp h
      exact hn v t' x' hw' hx'.minus.2
    have := Operand.length_le_of_head hc hm (hx'.spelled hhead).2 hw'
    rw [hp.pos] at this
    exact Nat.add_le_add_iff_left.mp this
  · rwa [List.append_nil]

theorem longest_of_head (hc : '\x7b' ∉ c.rest) (hm : ((pattern n).outcomes c).head? = some m) :
    ∃ g x w ms, Longest g x w c.rest ∧ c.Passes w ms m ∧ Reads (pattern n) w c.pos ms ∧
      Told n c.pos g x w ms := by
  have all : (pattern n).outcomes c = ((group (n + 1) (Numeral.char '-')).outcomes c).flatMap
      (group (n + 2) (Operand.pattern (n + 2))).outcomes ++
        (group (n + 2) (Operand.pattern (n + 2))).outcomes c := by
    simp only [pattern, outcomes, List.flatMap_append, List.flatMap_singleton]
  rcases group_set_cases (n + 1) (.single '-') c with ⟨hnil, hc'⟩ | ⟨a, d, ha, hp, hone⟩
  · have zero : (group (n + 1) (Numeral.char '-')).outcomes c = [] := hnil
    rw [all, zero] at hm
    refine longest_of_plain (fun v t y hv _ => ?_) hc hm
    exact hc' minusSign (by rw [hv]; rfl) ((Numeral.mem_single _ _).mpr rfl)
  · have one : (group (n + 1) (Numeral.char '-')).outcomes c = [d] := hone
    obtain rfl := (Numeral.mem_single _ _).mp ha
    rw [all, one, List.flatMap_singleton] at hm
    cases ho : (group (n + 2) (Operand.pattern (n + 2))).outcomes d with
    | nil =>
      rw [ho] at hm
      refine longest_of_plain (fun v t y hv => Operand.not_spelled_of_nil (t := t) ho ?_) hc hm
      exact (List.cons.inj (hp.rest.symm.trans hv)).2
    | cons e es =>
      refine longest_of_minus hp hc ?_
      rw [ho] at hm ⊢
      exact hm

end Unary

end Reckon
