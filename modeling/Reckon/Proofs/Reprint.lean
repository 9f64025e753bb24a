import Mathlib
import Reckon.Proofs.FiniteForm
import Reckon.Proofs.Resolve

/-!
# A formula is written as it is read

The text of a formula that an expression resolved to is read as the same formula. By induction on
the expression: its steps with the formulas of their groups give elements (`Resolver.GivesAll`), each
element is written as items that give the same element (`Resolver.exists_written`), and these are put
behind each other, which spells an expression again. All brackets are round then, the groups of a
call are one, and the numbers are in their exact form; offsets and positions are different, but no
element depends on them.

A number needs two things. Its exact form must not be too long to be read, and only a literal with a
minus sign of its own may have a negative value, or else the sign that is written would be read as
one in front of the operand. The reader of contents takes a sign for that wherever it can
(`Unary.plain`), so the literals that keep theirs stand behind another one.
-/

namespace Reckon

/-! ### Characters -/

/-- Does it occur in names, numbers and operators? -/
def isTyped (c : Char) : Bool := isNamePart c || ['.', '+', '-', '*', '/', '^'].contains c

theorem isPlain_of_isTyped {c : Char} (h : isTyped c) : isPlain c := by
  rcases char_cases c with hc | rfl | rfl | ⟨b, rfl⟩ | ⟨b, rfl⟩
  · exact hc
  · exact absurd h (by decide)
  · exact absurd h (by decide)
  · exact absurd h (by cases b <;> decide)
  · exact absurd h (by cases b <;> decide)

theorem toNat_of_isNamePart {c : Char} (h : isNamePart c) : 33 ≤ c.toNat ∧ c.toNat ≤ 126 := by
  simp only [isNamePart, isNameStart, isDigit, Bool.or_eq_true, Bool.and_eq_true, decide_eq_true_eq,
    beq_iff_eq, Char.le_def, UInt32.le_iff_toNat_le] at h
  rcases h with ((⟨h, h'⟩ | ⟨h, h'⟩) | rfl) | ⟨h, h'⟩
  · exact ⟨le_trans (by decide) h, le_trans h' (by decide)⟩
  · exact ⟨le_trans (by decide) h, le_trans h' (by decide)⟩
  · decide
  · exact ⟨le_trans (by decide) h, le_trans h' (by decide)⟩

theorem not_isBlank_of_isTyped {c : Char} (h : isTyped c) : ¬ isBlank c := by
  have range : 33 ≤ c.toNat ∧ c.toNat ≤ 126 := by
    rw [isTyped, Bool.or_eq_true] at h
    rcases h with h | h
    · exact toNat_of_isNamePart h
    · simp only [List.contains_eq_mem, List.mem_cons, List.not_mem_nil, or_false,
        decide_eq_true_eq] at h
      rcases h with rfl | rfl | rfl | rfl | rfl | rfl <;> decide
  simp only [isBlank, blankRanges, List.any_cons, List.any_nil, Bool.or_eq_true, Bool.and_eq_true,
    decide_eq_true_eq, Bool.or_false]
  omega

theorem isTyped_of_isNamePart {c : Char} (h : isNamePart c) : isTyped c := by
  rw [isTyped, h, Bool.true_or]

theorem isTyped_of_isSigned {c : Char} (h : isSigned c) : isTyped c := by
  rw [isSigned, Bool.or_eq_true, beq_iff_eq] at h
  rcases h with rfl | h
  · decide
  · exact isTyped_of_isNamePart (by rw [isNamePart, h, Bool.or_true])

theorem isTyped_symbol (o : Operator) : isTyped o.symbol := by cases o <;> decide

/-! ### Runs of items -/

/-- The items are spelled by the text, and no character of it is blank. -/
structure Item.Written (d pos : Nat) (items : List Item) (w : List Char) : Prop where
  spelled : Item.SpelledAll d pos items w
  visible : ∀ c ∈ w, ¬ isBlank c

namespace Item.Written

variable {d pos : Nat} {is js : List Item} {u v : List Char}

theorem append (hu : Item.Written d pos is u) (hv : Item.Written d (pos + u.length) js v) :
    Item.Written d pos (is ++ js) (u ++ v) :=
  ⟨hu.spelled.append hv.spelled, List.forall_mem_append.mpr ⟨hu.visible, hv.visible⟩⟩

theorem chars (d pos : Nat) {w : List Char} (h : ∀ c ∈ w, isTyped c) :
    Item.Written d pos (w.map .char) w := by
  refine ⟨?_, fun c hc => not_isBlank_of_isTyped (h c hc)⟩
  induction w generalizing pos with
  | nil => exact .nil
  | cons c w ih =>
    rw [List.forall_mem_cons] at h
    exact .char (isPlain_of_isTyped h.1) (ih (pos + 1) h.2)

theorem group (b : Bracket) {es : List Expression} {w : List Char}
    (h : Expression.SpelledAll d (pos + 1) es w) (hw : ∀ c ∈ w, ¬ isBlank c) :
    Item.Written (d + 1) pos [.group (.mk b pos (pos + 1 + w.length) es)]
      (b.opening :: (w ++ [b.closing])) := by
  refine ⟨.single (.mk h), ?_⟩
  rw [List.forall_mem_cons, List.forall_mem_append, List.forall_mem_singleton]
  exact ⟨by cases b <;> decide, hw, by cases b <;> decide⟩

end Item.Written

theorem map_mark_char (w : List Char) : (w.map Item.char).map Item.mark = w := by
  rw [List.map_map]
  exact List.map_id w

theorem filterMap_group_char (w : List Char) : (w.map Item.char).filterMap Item.group? = [] := by
  rw [List.filterMap_map]
  exact List.filterMap_eq_nil_iff.mpr fun _ _ => rfl

theorem Expression.Spelled.text_ne_nil {d pos : Nat} {e : Expression} {w : List Char}
    (h : e.Spelled d pos w) : w ≠ [] := by
  cases h with
  | mk hne h =>
    cases h with
    | nil => exact absurd rfl hne
    | char _ _ => exact List.cons_ne_nil _ _
    | group h _ =>
      cases h
      exact List.cons_ne_nil _ _

theorem Content.ne_nil {steps : List Step} {w : List Char} (h : Content steps w) : w ≠ [] := by
  cases h with
  | mk hu _ => exact List.append_ne_nil_of_left_ne_nil hu.ne_nil _

/-! ### Formulas -/

namespace Formula

theorem render_append (f g : Formula) : render (f ++ g) = render f ++ render g := by
  induction f with
  | nil => rfl
  | cons x f ih => rw [List.cons_append, render, render, ih, List.append_assoc]

theorem numbers_append (f g : Formula) : numbers (f ++ g) = numbers f ++ numbers g := by
  induction f with
  | nil => rfl
  | cons x f ih => rw [List.cons_append, numbers, numbers, ih, List.append_assoc]

/-- Every number has few enough digits behind the point to be read. -/
def Brief (f : Formula) : Prop := ∀ x ∈ numbers f, x.fractionDigits ≤ maxLiteralExponent

end Formula

open Formula

theorem render_signs (s : Step) : render (Resolver.signs s) =
    (s.operator.map Operator.symbol).toList ++ Unary.sign s.negated := by
  obtain ⟨_ | o, _ | _, operand, offset⟩ := s <;> rfl

theorem numbers_signs (s : Step) : numbers (Resolver.signs s) = [] := by
  obtain ⟨_ | o, _ | _, operand, offset⟩ := s <;> rfl

namespace Resolver

variable {r : Resolver} {d pos : Nat}

/-- Numbers are exact, and a function is found under its own name. -/
structure Exact (r : Resolver) : Prop where
  numbers : r.numbers = NumberReader.exact
  name : ∀ name n f, r.lookup name n = some f → f.name = name

theorem exact_table (table : FunctionTable) : Exact ⟨table.lookup, .exact⟩ :=
  ⟨rfl, fun _ _ _ h => (FunctionTable.lookup_eq_some h).1⟩

/-- The expression, which stands behind `pos` characters, is the formula as it is written. -/
structure Rereads (r : Resolver) (d pos : Nat) (e : Expression) (f : Formula) : Prop where
  spelled : Expression.Spelled d pos e (render f)
  resolve : r.resolve e = .ok f

/-- What the expression resolves to can be written and read again. -/
def Rewritable (r : Resolver) (d : Nat) (e : Expression) : Prop :=
  ∀ f, r.resolve e = .ok f → f.Brief →
    (∀ c ∈ render f, ¬ isBlank c) ∧ ∀ pos, ∃ e', r.Rereads d pos e' f

/-! ### Arguments -/

theorem exists_arguments {es : List Expression} {fs : List Formula} (hne : es ≠ [])
    (he : ∀ e ∈ es, r.Rewritable d e) (hf : es.map r.resolve = fs.map .ok)
    (hb : ∀ x ∈ argumentNumbers fs, x.fractionDigits ≤ maxLiteralExponent) :
    (∀ c ∈ renderArguments fs, ¬ isBlank c) ∧
      ∀ pos, ∃ es', Expression.SpelledAll d pos es' (renderArguments fs) ∧
        es'.map r.resolve = fs.map .ok := by
  induction fs generalizing es with
  | nil => exact absurd (List.map_eq_nil_iff.mp hf) hne
  | cons f fs ih =>
    obtain ⟨e, es, rfl, hef, hes⟩ := List.map_eq_cons_iff.mp hf
    rw [List.forall_mem_cons] at he
    rw [argumentNumbers, List.forall_mem_append] at hb
    obtain ⟨visible, first⟩ := he.1 f hef hb.1
    rcases fs with _ | ⟨f', fs⟩
    · refine ⟨visible, fun pos => ?_⟩
      obtain ⟨e', h⟩ := first pos
      exact ⟨[e'], .last h.spelled, congrArg (· :: []) h.resolve⟩
    · have hne : es ≠ [] := by
        rintro rfl
        cases hes
      obtain ⟨visible', later⟩ := ih hne he.2 hes hb.2
      rw [renderArguments]
      · constructor
        · rw [List.forall_mem_append, List.forall_mem_cons]
          exact ⟨visible, by decide, visible'⟩
        · intro pos
          obtain ⟨e', h⟩ := first pos
          obtain ⟨es', hs, hes'⟩ := later (pos + (render f).length + 1)
          refine ⟨e' :: es', .more h.spelled hs, ?_⟩
          rw [List.map_cons, hes', h.resolve]
          rfl
      · exact List.cons_ne_nil _ _

/-! ### Operands -/

/-- The operand as it is written and what it gives. -/
structure Written (r : Resolver) (d pos : Nat) (items : List Item) (operand : Operand) (x : Element) :
    Prop where
  written : Item.Written d pos items (renderElement x)
  spelled : operand.Spelled (items.map Item.mark)
  gives : r.Gives operand (items.filterMap Item.group?) x

/-- Groups whose expressions can be written and read again. -/
def Groups (r : Resolver) (d : Nat) (gs : List Group) : Prop :=
  ∀ g ∈ gs, g.children ≠ [] ∧ ∃ d', d = d' + 1 ∧ ∀ c ∈ g.children, r.Rewritable d' c

theorem exists_written_group {g : Group} {c : Expression} {f : Formula} (hg : r.Groups d [g])
    (hc : g.children = [c]) (hf : r.resolve c = .ok f) (hb : f.Brief) (pos : Nat) :
    ∃ g', r.Written d pos [.group g'] .placeholder (.group f) := by
  obtain ⟨-, d, rfl, h⟩ := hg g (List.mem_singleton_self g)
  obtain ⟨visible, again⟩ := h c (hc ▸ List.mem_singleton_self c) f hf hb
  obtain ⟨c', hc'⟩ := again (pos + 1)
  exact ⟨_, .group .round (.last hc'.spelled) visible, .group, .group rfl hc'.resolve⟩

/-- The groups of a call are written as one. -/
theorem exists_written_call (hr : r.Exact) {name : List Char} {gs : List Group} {f : Callable}
    {arguments : List Formula} (hname : Notation.Name name) (hg : r.Groups d gs) (hne : gs ≠ [])
    (hf : r.lookup (String.ofList name) arguments.length = some f)
    (ha : (gs.flatMap Group.children).map r.resolve = arguments.map .ok)
    (hb : ∀ x ∈ argumentNumbers arguments, x.fractionDigits ≤ maxLiteralExponent) (pos : Nat) :
    ∃ g', r.Written d pos (name.map .char ++ [.group g']) (.call name 1) (.call f arguments) := by
  obtain ⟨g, gs, rfl⟩ := List.exists_cons_of_ne_nil hne
  obtain ⟨hchildren, d, rfl, -⟩ := hg g (List.mem_cons_self ..)
  have children : (g :: gs).flatMap Group.children ≠ [] := by
    rw [List.flatMap_cons]
    exact List.append_ne_nil_of_left_ne_nil hchildren _
  have rewritable : ∀ c ∈ (g :: gs).flatMap Group.children, r.Rewritable d c := by
    intro c hc
    obtain ⟨g', hg', hc⟩ := List.mem_flatMap.mp hc
    obtain ⟨-, d', hd, h⟩ := hg g' hg'
    obtain rfl := Nat.succ_injective hd
    exact h c hc
  obtain ⟨visible, again⟩ := exists_arguments children rewritable ha hb
  obtain ⟨cs, hcs, hresolve⟩ := again (pos + name.length + 1)
  have hname' : f.name.toList = name := by rw [hr.name _ _ _ hf, String.toList_ofList]
  have typed : ∀ c ∈ name, isTyped c := fun c hc => isTyped_of_isNamePart (hname.isNamePart c hc)
  obtain ⟨g', hg'⟩ : ∃ g', g' = Group.mk .round (pos + name.length)
      (pos + name.length + 1 + (renderArguments arguments).length) cs := ⟨_, rfl⟩
  have written := (Item.Written.chars (d + 1) pos typed).append (.group .round hcs visible)
  have text : renderElement (.call f arguments) = name ++
      Bracket.round.opening :: (renderArguments arguments ++ [Bracket.round.closing]) := by
    rw [renderElement, hname', List.append_assoc]
    rfl
  have marks : (name.map Item.char ++ [Item.group g']).map Item.mark =
      name ++ List.replicate 1 placeholder := by
    rw [List.map_append, map_mark_char]
    rfl
  have groups : (name.map Item.char ++ [Item.group g']).filterMap Item.group? = [g'] := by
    rw [List.filterMap_append, filterMap_group_char]
    rfl
  refine ⟨g', ?_, ?_, ?_⟩
  · rw [text, hg']
    exact written
  · rw [marks]
    exact .call hname
  · have resolved : ([g'].flatMap Group.children).map r.resolve = arguments.map .ok := by
      rw [List.flatMap_singleton, hg']
      exact hresolve
    rw [groups]
    exact .call hf resolved

theorem written_number (hr : r.Exact) {p : NumberParts} {x : Fraction} (hp : p.Fits)
    (hbrace : '\x7b' ∉ p.entries.literal) (hx : r.numbers p.entries = .ok x)
    (hb : x.fractionDigits ≤ maxLiteralExponent) (pos : Nat) :
    r.Written d pos (x.exactChars.map .char) (.number x.exactChars (some x.exactParts)) (.number x) ∧
      (p.entries.literal.head? ≠ some minusSign → x.exactChars.head? ≠ some minusSign) := by
  rw [hr.numbers] at hx
  obtain ⟨finite, sign⟩ := hp.finite (hp.repeating_eq_none hbrace) (NumberReader.exact_eq_ok_iff.mp hx)
  have typed : ∀ c ∈ x.exactChars, isTyped c := by
    intro c hc
    rcases finite.mem_exactChars hc with h | rfl
    · exact isTyped_of_isSigned h
    · decide
  have spelled := Operand.Spelled.number x.exactParts_fits
  rw [Fraction.exactParts_literal] at spelled
  refine ⟨⟨.chars d pos typed, ?_, ?_⟩, fun hm => ?_⟩
  · rw [map_mark_char]
    exact spelled
  · rw [filterMap_group_char]
    refine .number ?_
    rw [hr.numbers]
    exact NumberReader.exact_exactParts finite.lowest hb
  · refine Fraction.head?_exactChars finite.lowest (sign ?_)
    rwa [hp.head?_literal] at hm

theorem written_var (r : Resolver) (d pos : Nat) {name : List Char}
    (hname : Notation.Name name) :
    r.Written d pos (name.map .char) (.var name) (.var (String.ofList name)) := by
  have typed : ∀ c ∈ name, isTyped c := fun c hc => isTyped_of_isNamePart (hname.isNamePart c hc)
  refine ⟨?_, ?_, ?_⟩
  · rw [renderElement, String.toList_ofList]
    exact .chars d pos typed
  · rw [map_mark_char]
    exact .var hname
  · rw [filterMap_group_char]
    exact .var

/-- An operand with its groups can be written as it is read. Without a sign it has none then. -/
theorem exists_written (hr : r.Exact) {operand : Operand} {u : List Char} {gs : List Group} {x : Element}
    (ho : operand.Spelled u) (hbrace : '\x7b' ∉ u) (hx : r.Gives operand gs x) (hg : r.Groups d gs)
    (hb : ∀ y ∈ elementNumbers x, y.fractionDigits ≤ maxLiteralExponent) (pos : Nat) :
    ∃ items operand', r.Written d pos items operand' x ∧
      (u.head? ≠ some minusSign → (items.map Item.mark).head? ≠ some minusSign) := by
  have plain {name t : List Char} (hname : Notation.Name name) : (name ++ t).head? ≠ some minusSign := by
    rcases name with _ | ⟨c, cs⟩
    · cases hname
    · rintro ⟨⟩
      exact absurd hname.1 (by decide)
  cases hx with
  | group hc hf =>
    obtain ⟨g', h⟩ := exists_written_group hg hc hf hb pos
    exact ⟨_, _, h, fun _ => by simp [Item.mark, placeholder, minusSign]⟩
  | @call name gs f arguments hf ha =>
    generalize hn : gs.length = n at ho
    cases ho with
    | call hname =>
      have hne : gs ≠ [] := fun h => by rw [h] at hn; cases hn
      obtain ⟨g', h⟩ := exists_written_call hr hname hg hne hf ha hb pos
      refine ⟨_, _, h, fun _ => ?_⟩
      rw [List.map_append, map_mark_char]
      exact plain hname
  | var =>
    cases ho with
    | var hname =>
      refine ⟨_, _, written_var r d pos hname, fun _ => ?_⟩
      rw [map_mark_char, ← List.append_nil u]
      exact plain hname
  | number hx =>
    cases ho with
    | number hp =>
      obtain ⟨h, hm⟩ := written_number hr hp hbrace hx (hb _ (List.mem_singleton_self _)) pos
      refine ⟨_, _, h, ?_⟩
      rw [map_mark_char]
      exact hm

/-! ### Steps -/

/-- Items that are written as `w` and an operand, possibly negated, that gives the element. -/
theorem exists_written_unary (hr : r.Exact) {g : Bool} {operand : Operand} {u : List Char}
    {gs : List Group} {x : Element} (hu : Unary g operand u) (hbrace : '\x7b' ∉ u)
    (hx : r.Gives operand gs x) (hg : r.Groups d gs)
    (hb : ∀ y ∈ elementNumbers x, y.fractionDigits ≤ maxLiteralExponent) (pos : Nat) :
    ∃ items operand', Item.Written d pos items (Unary.sign g ++ renderElement x) ∧
      Unary g operand' (items.map Item.mark) ∧ r.Gives operand' (items.filterMap Item.group?) x := by
  cases hu with
  | negated ho =>
    obtain ⟨items, operand', h, -⟩ := exists_written hr ho
      (fun hm => hbrace (List.mem_cons_of_mem _ hm)) hx hg hb (pos + 1)
    have minus : ∀ c ∈ [minusSign], isTyped c := by
      rw [List.forall_mem_singleton]
      decide
    exact ⟨.char minusSign :: items, operand', (Item.Written.chars d pos minus).append h.written,
      .negated h.spelled, h.gives⟩
  | plain ho hm =>
    obtain ⟨items, operand', h, hsign⟩ := exists_written hr ho hbrace hx hg hb pos
    have sign : u.head? ≠ some minusSign := by
      intro hu
      obtain ⟨v, rfl⟩ := List.head?_eq_some_iff.mp hu
      obtain ⟨y, hy⟩ := ho.minus
      exact hm y v rfl hy
    refine ⟨items, operand', h.written, .plain h.spelled fun y v hv => ?_, h.gives⟩
    refine absurd ?_ (hsign sign)
    rw [hv]
    rfl

/-- Steps that are written as the formula and give it. `L` is what the steps spell. -/
structure WrittenAll (r : Resolver) (d pos : Nat) (f : Formula) (L : List Step → List Char → Prop)
    (steps : List Step) (items : List Item) : Prop where
  written : Item.Written d pos items (render f)
  spelled : L steps (items.map Item.mark)
  gives : r.GivesAll steps (items.filterMap Item.group?) f

theorem render_step (s : Step) (x : Element) (f : Formula) : render (signs s ++ x :: f) =
    (s.operator.map Operator.symbol).toList ++
      ((Unary.sign s.negated ++ renderElement x) ++ render f) := by
  rw [render_append, render_signs, render, List.append_assoc, List.append_assoc]

theorem brief_step {s : Step} {x : Element} {f : Formula} (h : Brief (signs s ++ x :: f)) :
    (∀ y ∈ elementNumbers x, y.fractionDigits ≤ maxLiteralExponent) ∧ f.Brief := by
  rw [Brief, numbers_append, numbers_signs, List.nil_append, Formula.numbers, List.forall_mem_append] at h
  exact h

theorem groups_append {gs hs : List Group} (h : r.Groups d (gs ++ hs)) :
    r.Groups d gs ∧ r.Groups d hs := List.forall_mem_append.mp h

theorem exists_written_pairs (hr : r.Exact) {n : Nat} {steps : List Step} {w : List Char}
    (hw : Pairs n steps w) (hbrace : '\x7b' ∉ w) {gs : List Group} {f : Formula}
    (hf : r.GivesAll steps gs f) (hg : r.Groups d gs) (hb : f.Brief) (m pos : Nat) :
    ∃ steps' items, r.WrittenAll d pos f (Pairs m) steps' items := by
  induction hw generalizing gs f m pos with
  | nil =>
    cases hf
    exact ⟨[], [], ⟨.nil, nofun⟩, .nil, .nil⟩
  | @cons n o g operand steps u w hu _ ih =>
    obtain ⟨hbraceu, hbracew⟩ := not_or.mp (mt List.mem_append.mpr
      fun h => hbrace (List.mem_cons_of_mem _ h))
    cases hf with
    | @cons _ _ gs later x f hx hf =>
      obtain ⟨hgs, hlater⟩ := groups_append hg
      obtain ⟨hbx, hbf⟩ := brief_step hb
      obtain ⟨is, operand', his, hu', hx'⟩ :=
        exists_written_unary hr hu hbraceu hx hgs hbx (pos + 1)
      obtain ⟨steps', js, hjs⟩ := ih hbracew hf hlater hbf (m + 1 + (is.map Item.mark).length)
        (pos + 1 + (Unary.sign g ++ renderElement x).length)
      have symbol : ∀ c ∈ [o.symbol], isTyped c := List.forall_mem_singleton.mpr (isTyped_symbol o)
      refine ⟨⟨some o, g, operand', m + 1 + g.toNat⟩ :: steps', .char o.symbol :: (is ++ js), ?_, ?_, ?_⟩
      · rw [render_step]
        exact (Item.Written.chars d pos symbol).append (his.append hjs.written)
      · rw [List.map_cons, List.map_append]
        exact .cons hu' hjs.spelled
      · rw [List.filterMap_cons_none rfl, List.filterMap_append]
        exact GivesAll.cons (s := ⟨some o, g, operand', m + 1 + g.toNat⟩) hx' hjs.gives

theorem exists_written_content (hr : r.Exact) {steps : List Step} {w : List Char}
    (hw : Content steps w) (hbrace : '\x7b' ∉ w) {gs : List Group} {f : Formula}
    (hf : r.GivesAll steps gs f) (hg : r.Groups d gs) (hb : f.Brief) (pos : Nat) :
    ∃ steps' items, r.WrittenAll d pos f Content steps' items := by
  cases hw with
  | @mk g operand steps u w hu hw =>
    obtain ⟨hbraceu, hbracew⟩ := not_or.mp (mt List.mem_append.mpr hbrace)
    cases hf with
    | @cons _ _ gs later x f hx hf =>
      obtain ⟨hgs, hlater⟩ := groups_append hg
      obtain ⟨hbx, hbf⟩ := brief_step hb
      obtain ⟨is, operand', his, hu', hx'⟩ := exists_written_unary hr hu hbraceu hx hgs hbx pos
      obtain ⟨steps', js, hjs⟩ := exists_written_pairs hr hw hbracew hf hlater hbf
        (is.map Item.mark).length (pos + (Unary.sign g ++ renderElement x).length)
      refine ⟨⟨none, g, operand', g.toNat⟩ :: steps', is ++ js, ?_, ?_, ?_⟩
      · rw [render_step]
        exact his.append hjs.written
      · rw [List.map_append]
        exact .mk hu' hjs.spelled
      · rw [List.filterMap_append]
        exact GivesAll.cons (s := ⟨none, g, operand', g.toNat⟩) hx' hjs.gives

/-! ### Expressions -/

/-- By induction on the expression: all that can be resolved can be written and read again. -/
theorem rewritable (hr : r.Exact) {e : Expression} {w : List Char} (he : e.Spelled d pos w) :
    r.Rewritable d e := by
  induction hn : sizeOf e using Nat.strong_induction_on generalizing e d pos w with
  | _ n ih =>
    intro f hf hb
    obtain ⟨steps, gs, left, hc, hgroups, hall⟩ := (resolve_eq_ok_iff he.marked).mp hf
    have groups : r.Groups d gs := by
      intro g hg
      have hge : g ∈ e.groups := hgroups ▸ List.mem_append_left left hg
      obtain ⟨u, x, v, -, hspelled⟩ := he.group_of_mem hge
      cases hspelled with
      | @mk d _ b children y h =>
        refine ⟨h.ne_nil, d, rfl, fun c hc => ?_⟩
        obtain ⟨_, _, _, -, hchild⟩ := h.of_mem hc
        exact ih _ (hn ▸ sizeOf_child hge hc) hchild rfl
    have again := exists_written_content hr hc he.marked.brace_not_mem hall groups hb
    constructor
    · obtain ⟨_, _, h⟩ := again 0
      exact h.written.visible
    · intro pos
      obtain ⟨steps', items, h⟩ := again pos
      have hne : items ≠ [] := by
        rintro rfl
        exact h.spelled.ne_nil rfl
      have spelled := Expression.Spelled.mk hne h.written.spelled
      refine ⟨_, spelled, (resolve_eq_ok_iff spelled.marked).mpr ⟨steps', _, [], h.spelled, ?_, h.gives⟩⟩
      exact (List.append_nil _).symm

end Resolver

/-! ### Inputs -/

theorem strippedChars_of_visible {w : List Char} (h : ∀ c ∈ w, ¬ isBlank c) :
    strippedChars (String.ofList w) = w := by
  rw [strippedChars, String.toList_ofList, List.filter_eq_self]
  exact fun c hc => not_lineBreak_gap (h c hc)

namespace Resolver

/-- The text of a formula that an input resolved to is an input that resolves to the same formula, if
the numbers of the formula have few enough digits behind the point. -/
theorem ofTree_render {settings : Settings} {table : FunctionTable} {raw : String} {t : Tree}
    {f : Formula} (ht : Tree.ofRaw settings raw = .ok t)
    (hf : (⟨table.lookup, .exact⟩ : Resolver).ofTree settings t = .ok f)
    (hb : ∀ x ∈ Formula.numbers f, x.fractionDigits ≤ maxLiteralExponent) :
    ∃ t', Tree.ofRaw settings (String.ofList (Formula.render f)) = .ok t' ∧
      (⟨table.lookup, .exact⟩ : Resolver).ofTree settings t' = .ok f := by
  obtain ⟨-, hroot⟩ := Tree.ofRaw_eq_ok_iff.mp ht
  obtain ⟨visible, again⟩ := rewritable (exact_table table) hroot f (ofTree_eq_ok_iff.mp hf) hb
  obtain ⟨e, h⟩ := again 0
  have blank : ¬ (String.ofList (render f)).toList.all isBlank := by
    rw [String.toList_ofList]
    obtain ⟨c, cs, hcs⟩ := List.exists_cons_of_ne_nil h.spelled.text_ne_nil
    rw [hcs] at visible ⊢
    exact fun h => visible c (List.mem_cons_self ..) (List.all_eq_true.mp h c (List.mem_cons_self ..))
  obtain ⟨text, htext, hstripped⟩ := Text.ofRaw_eq_ok blank
  rw [strippedChars_of_visible visible] at hstripped
  exact ⟨⟨text, e⟩, Tree.ofRaw_eq_ok_iff.mpr ⟨htext, hstripped ▸ h.spelled⟩,
    ofTree_eq_ok_iff.mpr h.resolve⟩

theorem ofTree_render_scientific :
    ∃ (t : Tree) (f : Formula), Tree.ofRaw {} "[2E1]" = .ok t ∧
      (⟨FunctionTable.empty.lookup, .exact⟩ : Resolver).ofTree {} t = .ok f ∧
      (∀ x ∈ Formula.numbers f, x.fractionDigits ≤ maxLiteralExponent) ∧
      Formula.render f = ['(', '2', '0', ')'] ∧
      ∃ t', Tree.ofRaw {} (String.ofList (Formula.render f)) = .ok t' ∧
        (⟨FunctionTable.empty.lookup, .exact⟩ : Resolver).ofTree {} t' = .ok f := by
  have ht : Tree.ofRaw {} "[2E1]" =
      .ok ⟨⟨['[', '2', 'E', '1', ']'], ['[', '2', 'E', '1', ']'], [0, 1, 2, 3, 4]⟩,
        .mk 0 5 [.group (.mk .square 0 4 [.mk 1 4 [.char '2', .char 'E', .char '1']])]⟩ := by rfl
  obtain ⟨-, hroot⟩ := Tree.ofRaw_eq_ok_iff.mp ht
  have twenty : NumberReader.exact
      (NumberParts.entries ⟨.scientific, ['2'], none, none, some ['1']⟩) = .ok (.ofInt 20) := by rfl
  have fits : NumberParts.Fits ⟨.scientific, ['2'], none, none, some ['1']⟩ :=
    ⟨.inl ⟨'2', rfl, by decide⟩, nofun, rfl, _, rfl, .inl (.inl ⟨'1', [], rfl, by decide, nofun⟩)⟩
  have inner : (⟨FunctionTable.empty.lookup, .exact⟩ : Resolver).resolve
      (.mk 1 4 [.char '2', .char 'E', .char '1']) = .ok [.number (.ofInt 20)] := by
    have marked : Expression.Marked (.mk 1 4 [.char '2', .char 'E', .char '1']) := by
      rintro c hc
      simp only [Expression.items, List.mem_cons, Item.char.injEq, List.not_mem_nil, or_false] at hc
      rcases hc with rfl | rfl | rfl <;> decide
    exact (resolve_eq_ok_iff marked).mpr ⟨_, _, [],
      .mk (.plain (.number fits) (by rintro y v ⟨⟩)) .nil, rfl,
      .cons (s := ⟨none, false, .number _ (some _), 0⟩) (.number twenty) .nil⟩
  have hf : (⟨FunctionTable.empty.lookup, .exact⟩ : Resolver).ofTree {} _ =
      .ok [.group [.number (.ofInt 20)]] :=
    ofTree_eq_ok_iff.mpr ((resolve_eq_ok_iff hroot.marked).mpr ⟨_, _, [],
      .mk (.plain .group (by rintro y v ⟨⟩)) .nil, rfl,
      .cons (s := ⟨none, false, .placeholder, 0⟩) (.group rfl inner) .nil⟩)
  have hb : ∀ x ∈ Formula.numbers [.group [.number (.ofInt 20)]],
      x.fractionDigits ≤ maxLiteralExponent := by
    decide +kernel
  have text : Formula.render [.group [.number (.ofInt 20)]] = ['(', '2', '0', ')'] := by
    decide +kernel
  exact ⟨_, _, ht, hf, hb, text, ofTree_render ht hf hb⟩

end Resolver

end Reckon
