import Mathlib
import Reckon.Proofs.Operation

/-!
# Content is read as far as it goes

`Reading.ofContent` takes the longest operand, then an operator and the longest operand, and so on.
No shorter operand is followed by an operator (`Unary.commits`), so what is read is the longest start
of the text that is content, and the steps are the only ones for it (`Reading.ofContent_spec`).
-/

namespace Reckon

open Pattern

variable {g g' : Bool} {o o' : Operator} {x x' : Operand} {text u u' v w w' r t : List Char}
  {n n' : Nat} {steps steps' : List Step} {m : Cursor}

/-- `w` is the longest start of `text` that is of `L`, with these steps only. -/
structure Farthest (L : List Step → List Char → Prop) (steps : List Step) (w text : List Char) :
    Prop where
  split : ∃ t, text = w ++ t
  reads : L steps w
  le : ∀ steps' w' t, text = w' ++ t → L steps' w' → w'.length ≤ w.length
  unique : ∀ steps', L steps' w → steps' = steps

theorem Farthest.eq {L : List Step → List Char → Prop} (h : Farthest L steps w text)
    (h' : Farthest L steps' w' text) : steps' = steps ∧ w' = w := by
  obtain ⟨t, ht⟩ := h.split
  obtain ⟨t', ht'⟩ := h'.split
  obtain rfl : w' = w := (List.append_inj (ht'.symm.trans ht)
    (le_antisymm (h.le _ _ _ ht' h'.reads) (h'.le _ _ _ ht h.reads))).1
  exact ⟨h.unique _ h'.reads, rfl⟩

/-! ### One match -/

namespace Unary

theorem matchStart_none (hm : Form.unaryOperation.component.matchStart text = none)
    (hw : text = w ++ t) : ¬ Unary g x w := by
  rw [Component.matchStart_eq, unaryOperation_component.1, matchStart_eq_head?,
    List.head?_eq_none_iff] at hm
  exact not_unary_of_nil hm hw

/-- A match gives the step that its marks tell. -/
theorem step_of_passes {ms : List (Mark × Nat)} (hp : (Cursor.ofText text).Passes w ms m)
    (ht : Told 0 0 g x w ms) : text = w ++ m.rest ∧ m.pos = w.length ∧
      Step.ofMatch m text Form.unaryOperation.component.parts 0 none =
        .ok ⟨none, g, x, g.toNat⟩ := by
  have hmarks : m.marks = ms := hp.marks.trans (List.append_nil ms)
  have hstep := ht m [] m.rest 0 none (.of_marks hmarks 0) rfl
  rw [List.nil_append, ← hp.rest] at hstep
  refine ⟨hp.rest, hp.pos.trans (Nat.zero_add _), ?_⟩
  rw [unaryOperation_component.2]
  simpa [Cursor.ofText] using hstep

theorem matchStart_some (hc : '\x7b' ∉ text)
    (hm : Form.unaryOperation.component.matchStart text = some m) :
    ∃ g x w t, text = w ++ t ∧ m.pos = w.length ∧ Longest g x w text ∧
      Step.ofMatch m text Form.unaryOperation.component.parts 0 none =
        .ok ⟨none, g, x, g.toNat⟩ := by
  rw [Component.matchStart_eq, unaryOperation_component.1, matchStart_eq_head?] at hm
  obtain ⟨g, x, w, ms, hl, hp, _, ht⟩ := longest_of_head hc hm
  obtain ⟨hrest, hpos, hstep⟩ := step_of_passes hp ht
  exact ⟨g, x, w, m.rest, hrest, hpos, hl, hstep⟩

end Unary

namespace Pairs

theorem nil_of_nil (h : Pairs n steps []) : steps = [] := by
  cases h with
  | nil => rfl

theorem mem_operatorPattern (a : Char) :
    (⟨false, [('-', '-'), ('+', '+'), ('*', '*'), ('/', '/'), ('^', '^')]⟩ : CharSet).mem a ↔
      ∃ o : Operator, a = o.symbol := by
  refine (CharSet.mem_singles ['-', '+', '*', '/', '^'] a).trans ?_
  simp only [List.mem_cons, List.not_mem_nil, or_false]
  constructor
  · rintro (h | h | h | h | h)
    exacts [⟨.subtract, h⟩, ⟨.add, h⟩, ⟨.multiply, h⟩, ⟨.divide, h⟩, ⟨.power, h⟩]
  · rintro ⟨o, rfl⟩
    cases o <;> decide

theorem plain_operatorPattern :
    Numeral.Plain operatorPattern fun w => ∃ o : Operator, w = [o.symbol] := by
  intro w pos ms
  simp only [operatorPattern, reads_set_iff, mem_operatorPattern]
  constructor
  · rintro ⟨_, ⟨o, rfl⟩, rfl, rfl⟩
    exact ⟨⟨o, rfl⟩, rfl⟩
  · rintro ⟨⟨o, rfl⟩, rfl⟩
    exact ⟨_, ⟨o, rfl⟩, rfl, rfl⟩

theorem matchStart_none (hm : Form.binaryOperation.component.matchStart text = none)
    (hw : text = o.symbol :: (w ++ t)) : ¬ Unary g x w := by
  rw [Component.matchStart_eq, binaryOperation_component.1, matchStart_eq_head?,
    List.head?_eq_none_iff] at hm
  intro hx
  obtain ⟨ms, hms⟩ := Unary.exists_reads hx 2 1
  have reads : Reads pattern (o.symbol :: w) 0 _ :=
    .cat (plain_operatorPattern.group.mpr ⟨⟨o, rfl⟩, rfl⟩) (.group hms)
  exact List.not_mem_nil (hm ▸ reads.mem_outcomes (c := .ofText text) (t := t) hw)

theorem ofBinaryMatch_eq {span : Span} {unary : Part} {offset : Nat}
    (hs : m.part? parts [.binaryOperator] = some span)
    (ho : (span.of text).head? = some o.symbol)
    (hu : Part.find? [.unaryOperation] parts = some unary) :
    Step.ofBinaryMatch m text offset = Step.ofMatch m text unary.children offset (some o) := by
  unfold Step.ofBinaryMatch
  rw [binaryOperation_component.2]
  simp only [hs, hu, Option.bind_eq_bind, Option.bind_some, ho, Operator.ofSymbol_symbol]

/-- A match is one of an operand behind an operator, and gives the step that its marks tell. -/
theorem matchStart_cases (hm : Form.binaryOperation.component.matchStart text = some m) :
    ∃ (o : Operator) (d e : Cursor), text = o.symbol :: d.rest ∧ d.pos = 1 ∧
      ((Unary.pattern 2).outcomes d).head? = some e ∧
      ∀ (g : Bool) (x : Operand) (w : List Char) (ms : List (Mark × Nat)), d.Passes w ms e →
        Reads (Unary.pattern 2) w d.pos ms → Unary.Told 2 d.pos g x w ms →
        m.pos = 1 + w.length ∧ ∀ offset, Step.ofBinaryMatch m text offset =
          .ok ⟨some o, g, x, offset + 1 + g.toNat⟩ := by
  rw [Component.matchStart_eq, binaryOperation_component.1, matchStart_eq_head?, pattern,
    outcomes] at hm
  rcases group_set_cases 1 ⟨false, [('-', '-'), ('+', '+'), ('*', '*'), ('/', '/'), ('^', '^')]⟩
    (.ofText text) with ⟨hnil, _⟩ | ⟨a, d, ha, hp, hone⟩
  · have zero : (group 1 operatorPattern).outcomes (.ofText text) = [] := hnil
    rw [zero, List.flatMap_nil, List.head?_nil] at hm
    cases hm
  · have one : (group 1 operatorPattern).outcomes (.ofText text) = [d] := hone
    obtain ⟨o, rfl⟩ := (mem_operatorPattern a).mp ha
    have htext : text = o.symbol :: d.rest := hp.rest
    have hpos : (d.mark (.opened 2)).pos = 1 := hp.pos
    rw [one, List.flatMap_singleton, outcomes, List.head?_map, Option.map_eq_some_iff] at hm
    obtain ⟨e, he, rfl⟩ := hm
    refine ⟨o, d.mark (.opened 2), e, htext, hpos, he, fun g x w ms hw hr ht => ?_⟩
    rw [hpos] at hr ht
    have hrest : d.rest = w ++ e.rest := hw.rest
    have hepos : e.pos = 1 + w.length := hw.pos.trans (congrArg (· + w.length) hpos)
    have hmarks : (e.mark (.closed 2)).marks = (Mark.closed 2, 1 + w.length) ::
        (ms ++ [(Mark.opened 2, 1), (Mark.closed 1, 1), (Mark.opened 1, 0)]) := by
      simp [Cursor.mark, hw.marks, hepos, hp.marks, hp.pos, Cursor.ofText]
    have shows : (e.mark (.closed 2)).Shows 2 ms :=
      (Cursor.Shows.of_marks hmarks 2).inside le_rfl (by simp [Mark.index])
    have opened : ms.lookup (.opened 1) = none :=
      hr.lookup_eq_none (Unary.groups_pattern 2) (by decide)
    have closed : ms.lookup (.closed 1) = none :=
      hr.lookup_eq_none (Unary.groups_pattern 2) (by decide)
    have first : (e.mark (.closed 2)).group? 1 = some ⟨0, 1⟩ := by
      rw [Cursor.group?, hmarks]
      simp [lookup_cons_ite, List.lookup_append, opened, closed]
    have operator : (e.mark (.closed 2)).part? parts [.binaryOperator] = some ⟨0, 1⟩ := first
    have symbol : ((⟨0, 1⟩ : Span).of text).head? = some o.symbol := by rw [htext]; rfl
    refine ⟨hepos, fun offset => ?_⟩
    have hstep := ht (e.mark (.closed 2)) [o.symbol] e.rest offset (some o) shows rfl
    rw [List.singleton_append, ← hrest, ← htext] at hstep
    rw [ofBinaryMatch_eq operator symbol rfl, hstep, Nat.add_assoc]

theorem matchStart_some (hc : '\x7b' ∉ text)
    (hm : Form.binaryOperation.component.matchStart text = some m) :
    ∃ o g x w t, text = o.symbol :: (w ++ t) ∧ m.pos = 1 + w.length ∧
      Unary.Longest g x w (w ++ t) ∧ ∀ offset, Step.ofBinaryMatch m text offset =
        .ok ⟨some o, g, x, offset + 1 + g.toNat⟩ := by
  obtain ⟨o, d, e, htext, -, he, hstep⟩ := matchStart_cases hm
  have hbrace : '\x7b' ∉ d.rest := fun h => hc (htext ▸ List.mem_cons_of_mem _ h)
  obtain ⟨g, x, w, ms, hl, hw, hr, ht⟩ := Unary.longest_of_head hbrace he
  obtain ⟨hpos, hstep⟩ := hstep g x w ms hw hr ht
  exact ⟨o, g, x, w, e.rest, htext.trans (congrArg _ hw.rest), hpos, hw.rest ▸ hl, hstep⟩

end Pairs

/-! ### The whole content -/

theorem Operator.symbol_injective (h : o.symbol = o'.symbol) : o = o' := by
  have := Operator.ofSymbol_symbol o
  rw [h, Operator.ofSymbol_symbol] at this
  exact (Option.some.inj this).symm

/-- After the longest operand, and nowhere else, it goes on. -/
theorem Unary.Longest.after (h : Unary.Longest g x u text) (hu : text = u ++ r)
    (hf : Farthest (Pairs n) steps w r) (h' : Unary g' x' u') (hs : Pairs n' steps' w')
    (hn : u' = u → n' = n) (ht : text = u' ++ (w' ++ t)) :
    (u' ++ w').length ≤ (u ++ w).length ∧
      (u' ++ w' = u ++ w → g' = g ∧ x' = x ∧ steps' = steps) := by
  have hle := h.longest g' x' u' (w' ++ t) ht h'
  rcases Unary.commits h.unary h' hle hs (ht.symm.trans hu) with ⟨rfl, hr⟩ | ⟨rfl, rfl, hlt⟩
  · obtain rfl := hn rfl
    constructor
    · rw [List.length_append, List.length_append]
      exact Nat.add_le_add_left (hf.le steps' w' t hr.symm hs) _
    · intro he
      obtain rfl := List.append_cancel_left he
      obtain ⟨rfl, rfl⟩ := h'.unique h.unary
      exact ⟨rfl, rfl, hf.unique steps' hs⟩
  · rw [List.append_nil, List.length_append]
    constructor
    · omega
    · intro he
      have := congrArg List.length he
      rw [List.length_append] at this
      omega

theorem Pairs.farthest_nil (h : ∀ (o : Operator) (g : Bool) (x : Operand) (u t : List Char),
    text = o.symbol :: (u ++ t) → ¬ Unary g x u) : Farthest (Pairs n) [] [] text := by
  refine ⟨⟨text, rfl⟩, .nil, fun steps' w' t hw hs => ?_, fun steps' hs => nil_of_nil hs⟩
  cases hs with
  | nil => exact le_rfl
  | cons hu hs => exact absurd hu (h _ _ _ _ _ (hw.trans (congrArg _ (List.append_assoc ..))))

theorem Pairs.farthest_cons (h : Unary.Longest g x u (u ++ r)) (hc : text = o.symbol :: (u ++ r))
    (hf : Farthest (Pairs (n + 1 + u.length)) steps w r) :
    Farthest (Pairs n) (⟨some o, g, x, n + 1 + g.toNat⟩ :: steps) (o.symbol :: (u ++ w)) text := by
  obtain ⟨t, rfl⟩ := hf.split
  refine ⟨⟨t, by simp [hc]⟩, .cons h.unary hf.reads, fun steps' w' t' hw hs => ?_, fun steps' hs => ?_⟩
  · cases hs with
    | nil => exact Nat.zero_le _
    | cons hu hs =>
      have ht := (List.cons.inj (hc.symm.trans hw)).2
      exact Nat.succ_le_succ (h.after rfl hf hu hs (fun e => by rw [e])
        (ht.trans (List.append_assoc ..))).1
  · generalize hw : o.symbol :: (u ++ w) = w' at hs
    cases hs with
    | nil => cases hw
    | cons hu hs =>
      obtain ⟨ho, hw⟩ := List.cons.inj hw
      have ht := congrArg (· ++ t) hw
      simp only [List.append_assoc] at ht
      obtain ⟨rfl, rfl, rfl⟩ := (h.after rfl hf hu hs (fun e => by rw [e]) ht).2 hw.symm
      rw [Operator.symbol_injective ho]

theorem Content.farthest (h : Unary.Longest g x u text) (hc : text = u ++ r)
    (hf : Farthest (Pairs u.length) steps w r) :
    Farthest Content (⟨none, g, x, g.toNat⟩ :: steps) (u ++ w) text := by
  obtain ⟨t, rfl⟩ := hf.split
  refine ⟨⟨t, by simp [hc]⟩, .mk h.unary hf.reads, fun steps' w' t' hw hs => ?_, fun steps' hs => ?_⟩
  · cases hs with
    | mk hu hs => exact (h.after hc hf hu hs (fun e => by rw [e]) (hw.trans (List.append_assoc ..))).1
  · generalize hw : u ++ w = w' at hs
    cases hs with
    | mk hu hs =>
      have ht := congrArg (· ++ t) hw
      simp only [List.append_assoc] at ht
      obtain ⟨rfl, rfl, rfl⟩ := (h.after hc hf hu hs (fun e => by rw [e]) (hc.trans ht)).2 hw.symm
      rfl

theorem Reading.pairs_spec (fuel : Nat) (hc : '\x7b' ∉ text) (hf : text.length ≤ fuel) (n : Nat) :
    ∃ steps w, Farthest (Pairs n) steps w text ∧
      Reading.pairs fuel text n = .ok ⟨steps, n + w.length⟩ := by
  induction fuel generalizing text n with
  | zero =>
    obtain rfl := List.length_eq_zero_iff.mp (Nat.le_zero.mp hf)
    exact ⟨[], [], Pairs.farthest_nil fun _ _ _ _ _ h => absurd h.symm (List.cons_ne_nil _ _), rfl⟩
  | succ fuel ih =>
    cases hm : Form.binaryOperation.component.matchStart text with
    | none =>
      exact ⟨[], [], Pairs.farthest_nil fun _ _ _ _ _ => Pairs.matchStart_none hm, pairs_none hm⟩
    | some m =>
      obtain ⟨o, g, x, u, r, rfl, hpos, hl, hstep⟩ := Pairs.matchStart_some hc hm
      have hdrop : (o.symbol :: (u ++ r)).drop m.pos = r := by simp [hpos, Nat.add_comm 1]
      obtain ⟨steps, w, hw, hlater⟩ := @ih r
        (fun h => hc (List.mem_cons_of_mem _ (List.mem_append_right _ h)))
        (by simp at hf; omega) (n + m.pos)
      rw [hpos, ← Nat.add_assoc] at hw
      have hstop : n + m.pos + w.length = n + (o.symbol :: (u ++ w)).length := by
        rw [hpos, List.length_cons, List.length_append]
        omega
      refine ⟨_, _, Pairs.farthest_cons hl rfl hw, ?_⟩
      rw [pairs_some hm (hstep n) (hdrop.symm ▸ hlater), hstop]

/-- Content is read up to where the longest content ends. -/
theorem Reading.ofContent_spec (hc : '\x7b' ∉ text) :
    (Reading.ofContent text = .ok none ∧ ∀ steps w t, text = w ++ t → ¬ Content steps w) ∨
      ∃ steps w, Farthest Content steps w text ∧
        Reading.ofContent text = .ok (some ⟨steps, w.length⟩) := by
  cases hm : Form.unaryOperation.component.matchStart text with
  | none =>
    refine .inl ⟨ofContent_none hm, fun steps w t hw hs => ?_⟩
    cases hs with
    | mk hu hs => exact Unary.matchStart_none hm (hw.trans (List.append_assoc ..)) hu
  | some m =>
    obtain ⟨g, x, u, r, hsplit, hpos, hl, hstep⟩ := Unary.matchStart_some hc hm
    have hdrop : text.drop m.pos = r := by rw [hpos, hsplit, List.drop_left]
    have hr : '\x7b' ∉ r := fun h => hc (hsplit ▸ List.mem_append_right _ h)
    have hlen : r.length ≤ text.length := by
      rw [hsplit, List.length_append]
      omega
    obtain ⟨steps, w, hw, hlater⟩ := pairs_spec text.length hr hlen m.pos
    refine .inr ⟨_, _, Content.farthest hl hsplit (hpos ▸ hw), ?_⟩
    rw [ofContent_some hm hstep (hdrop.symm ▸ hlater), hpos, List.length_append]

theorem Reading.ofContent_eq (hc : '\x7b' ∉ text) (hf : Farthest Content steps w text) :
    Reading.ofContent text = .ok (some ⟨steps, w.length⟩) := by
  rcases Reading.ofContent_spec hc with ⟨-, hn⟩ | ⟨steps', w', hf', hr⟩
  · obtain ⟨t, ht⟩ := hf.split
    exact absurd hf.reads (hn _ _ _ ht)
  · obtain ⟨rfl, rfl⟩ := hf.eq hf'
    exact hr

end Reckon
