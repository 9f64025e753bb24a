import Mathlib
import Reckon.Proofs.FiniteForm
import Reckon.Proofs.Raises

/-!
# Literals in the content of an expression

A number is matched in three places: alone, as the first operand and behind an operator, each time
with its groups behind others. Whatever the content, a match as an operand tells an operand that is
spelled where the match stands (`Unary.exists_told`), so the steps of any reading have their operands
at their offsets (`Reading.ofContent_standsIn`). The parts of a number among them are then those of
the text alone, since a text is the literal of one choice of parts only, and the resolver of exact
numbers makes of it what the text is read as (`Resolver.literal_read_alone`).
-/

namespace Reckon

open Pattern

/-! ### Operands of any content -/

/-- The operand of the step stands at its offset, where `n` characters come before `text`. -/
def Step.StandsIn (s : Step) (n : Nat) (text : List Char) : Prop :=
  ∃ u w v, text = u ++ (w ++ v) ∧ n + u.length = s.offset ∧ s.operand.Spelled w

variable {text t w : List Char} {n : Nat} {m : Cursor} {s : Step} {parts : Option NumberParts}

theorem Step.StandsIn.append (h : s.StandsIn (n + w.length) text) : s.StandsIn n (w ++ text) := by
  obtain ⟨u, x, v, rfl, hu, hx⟩ := h
  exact ⟨w ++ u, x, v, (List.append_assoc ..).symm, by rw [List.length_append, ← hu]; omega, hx⟩

theorem Step.StandsIn.number (h : s.StandsIn n text) (hn : s.operand = .number t parts) :
    (∃ u v, text = u ++ (t ++ v) ∧ n + u.length = s.offset) ∧
      ∃ p, parts = some p ∧ NumberParts.ofLiteral t = some p := by
  obtain ⟨u, x, v, htext, hu, hx⟩ := h
  rw [hn] at hx
  cases hx with
  | @number p hp => exact ⟨⟨u, v, htext, hu⟩, p, rfl, Numeral.ofLiteral_eq_some_iff.mpr ⟨hp, rfl⟩⟩

namespace Unary

variable {c d : Cursor}

/-- A match of an operand that may be negated tells the operand. -/
theorem exists_told (h : ((pattern n).outcomes c).head? = some d) :
    ∃ (g : Bool) (x : Operand) (u : List Char) (ms : List (Mark × Nat)), x.Spelled u ∧
      c.Passes (sign g ++ u) ms d ∧ Reads (pattern n) (sign g ++ u) c.pos ms ∧
      Told n c.pos g x (sign g ++ u) ms := by
  obtain ⟨w, ms, hr, hp⟩ := reads_of_mem_outcomes rfl (List.mem_of_head? h)
  obtain ⟨v, u, ks, ns, hv, hu, rfl, rfl⟩ := reads_cat_iff.mp hr
  rcases reads_opt_iff.mp hv with hv | ⟨rfl, rfl⟩
  · obtain ⟨rfl, rfl⟩ := (Numeral.plain_char '-').group.mp hv
    obtain ⟨x, hx, ht⟩ := told (g := true) hu
    exact ⟨true, x, u, _, hx, hp, hr, ht⟩
  · obtain ⟨x, hx, ht⟩ := told (g := false) hu
    rw [List.append_nil] at hp hr
    rw [signMarks, if_neg Bool.false_ne_true, List.append_nil] at ht
    exact ⟨false, x, u, ns, hx, hp, hr, ht⟩

end Unary

namespace Reading

theorem pairs_standsIn (fuel : Nat) (text : List Char) (n : Nat) :
    ∃ reading, pairs fuel text n = .ok reading ∧ ∀ s ∈ reading.steps, s.StandsIn n text := by
  induction fuel generalizing text n with
  | zero => exact ⟨_, rfl, List.forall_mem_nil _⟩
  | succ fuel ih =>
    cases hm : Form.binaryOperation.component.matchStart text with
    | none => exact ⟨_, pairs_none hm, List.forall_mem_nil _⟩
    | some m =>
      obtain ⟨o, d, e, rfl, hd, he, hstep⟩ := Pairs.matchStart_cases hm
      obtain ⟨g, x, u, ms, hx, hp, hr, ht⟩ := Unary.exists_told he
      obtain ⟨hpos, hstep⟩ := hstep g x _ ms hp hr ht
      have hrest : o.symbol :: d.rest = (o.symbol :: (Unary.sign g ++ u)) ++ e.rest :=
        congrArg _ hp.rest
      have hlength : m.pos = (o.symbol :: (Unary.sign g ++ u)).length := hpos.trans (Nat.add_comm ..)
      obtain ⟨later, hlater, hall⟩ := ih e.rest (n + m.pos)
      have hdrop : (o.symbol :: d.rest).drop m.pos = e.rest := by
        rw [hrest, hlength, List.drop_left]
      refine ⟨_, pairs_some hm (hstep n) (hdrop.symm ▸ hlater),
        List.forall_mem_cons.mpr ⟨?_, fun s hs => ?_⟩⟩
      · refine ⟨o.symbol :: Unary.sign g, u, e.rest, hrest.trans (by simp), ?_, hx⟩
        rw [List.length_cons, Unary.length_sign]
        exact Nat.add_right_comm n g.toNat 1
      · rw [hrest]
        exact (hlength ▸ hall s hs).append

/-- Any content has a reading or does not start with an operand, and the operands of a reading stand
at their offsets. -/
theorem ofContent_standsIn (text : List Char) :
    ofContent text = .ok none ∨ ∃ reading, ofContent text = .ok (some reading) ∧
      ∀ s ∈ reading.steps, s.StandsIn 0 text := by
  cases hm : Form.unaryOperation.component.matchStart text with
  | none => exact .inl (ofContent_none hm)
  | some m =>
    have hm' := hm
    rw [Component.matchStart_eq, Unary.unaryOperation_component.1, matchStart_eq_head?] at hm'
    obtain ⟨g, x, u, ms, hx, hp, -, ht⟩ := Unary.exists_told hm'
    obtain ⟨hrest, hpos, hstep⟩ := Unary.step_of_passes hp ht
    obtain ⟨later, hlater, hall⟩ := pairs_standsIn text.length m.rest m.pos
    have hdrop : text.drop m.pos = m.rest := by
      rw [hpos]
      conv_lhs => rw [hrest, List.drop_left]
    refine .inr ⟨_, ofContent_some hm hstep (hdrop.symm ▸ hlater),
      List.forall_mem_cons.mpr ⟨?_, fun s hs => ?_⟩⟩
    · refine ⟨Unary.sign g, u, m.rest, hrest.trans (List.append_assoc ..), ?_, hx⟩
      rw [Unary.length_sign, Nat.zero_add]
    · rw [hrest]
      refine Step.StandsIn.append ?_
      rw [Nat.zero_add, ← hpos]
      exact hall s hs

end Reading

/-- The resolver takes the text for a number in the content of the expression. -/
def Expression.HasNumber (e : Expression) (t : List Char) : Prop :=
  ∃ reading s parts, Reading.ofContent e.content = .ok (some reading) ∧ s ∈ reading.steps ∧
    s.operand = .number t parts

/-! ### What becomes of a number -/

theorem Fraction.ofLiteral_eq {p : NumberParts} (h : NumberParts.ofLiteral t = some p) :
    Fraction.ofLiteral t = p.value.mapError .arithmetic := by
  rw [Fraction.ofLiteral, h]
  simp only
  cases p.value <;> rfl

/-- The parts are read as the literal is, with the same fault where it has none. -/
theorem NumberReader.exact_cases {p : NumberParts} (h : NumberParts.ofLiteral t = some p) :
    (∃ x, Fraction.ofLiteral t = .ok x ∧ NumberReader.exact p.entries = .ok x) ∨
      ∃ fault, Fraction.ofLiteral t = .error (.arithmetic fault) ∧
        NumberReader.exact p.entries = .error (.invalidNumber (String.ofList t) fault.headline) := by
  rw [Fraction.ofLiteral_eq h, exact_entries, (Numeral.ofLiteral_eq_some_iff.mp h).2]
  cases p.value with
  | error fault => exact .inr ⟨fault, rfl, rfl⟩
  | ok x => exact .inl ⟨x, rfl, rfl⟩

namespace Resolver

variable {r : Resolver} {lookup : Lookup} {e : Expression} {before after : List Step}
  {gs : List Group} {f : Formula} {fault : ResolveFault}

theorem element_number {p : NumberParts} (hn : s.operand = .number t (some p)) (e : Expression)
    (groups : List ResolvedGroup) :
    r.element e groups s = (r.numbers p.entries).map fun x => (.number x, groups) := by
  simp only [element, hn]

/-- A step that fails ends the elements, whatever follows it. -/
theorem GivesAll.elements_error (h : r.GivesAll before gs f)
    (hs : ∀ groups, r.element e groups s = .error fault) (left : List Group) :
    r.elements e ((gs ++ left).map r.resolved) (before ++ s :: after) = .error fault := by
  induction h with
  | nil => rw [List.nil_append, List.nil_append, elements, hs]
  | cons h _ ih =>
    rw [List.append_assoc, List.cons_append, elements, h.element_eq e]
    simp only [ih]
    rfl

/-- The first step without a meaning of its own gives the fault. -/
theorem resolve_eq_of_element_error (hm : e.Marked) {reading : Reading}
    (hr : Reading.ofContent e.content = .ok (some reading))
    (hs : reading.steps = before ++ s :: after) (hbefore : ∀ s' ∈ before, r.Resolves e s')
    (hfault : ∀ groups, r.element e groups s = .error fault) : r.resolve e = .error fault := by
  rcases Reading.ofContent_spec hm.brace_not_mem with ⟨hnone, -⟩ | ⟨steps, w, hf, hsome⟩
  · rw [hnone] at hr
    cases hr
  · rw [hsome] at hr
    obtain rfl := Option.some.inj (Except.ok.inj hr)
    obtain rfl : steps = before ++ s :: after := hs
    obtain ⟨t, ht⟩ := hf.split
    obtain ⟨is, js, hitems, hi, -⟩ := List.map_eq_append_iff.mp ht
    obtain ⟨hgroups, hcount⟩ := hf.reads.groups_eq hm hitems hi
    obtain ⟨f, hgives⟩ := (exists_givesAll_iff fun s' hs' =>
      hcount s' (List.mem_append_left _ hs')).mpr hbefore
    have all : e.groups = before.flatMap (Step.groups · e) ++
        ((s :: after).flatMap (Step.groups · e) ++ js.filterMap Item.group?) := by
      rw [Expression.groups, hitems, List.filterMap_append, ← hgroups, List.flatMap_append,
        List.append_assoc]
    rw [resolve_eq, formula, hsome, all]
    simp only [hgives.elements_error hfault]

/-- Where an expression resolves, so do all steps of its reading. -/
theorem resolves_of_ok (hm : e.Marked) {reading : Reading}
    (hr : Reading.ofContent e.content = .ok (some reading)) (h : ∃ f, r.resolve e = .ok f) :
    ∀ s ∈ reading.steps, r.Resolves e s := by
  obtain ⟨steps, hc, hall⟩ := (resolve_ok_iff hm).mp h
  have hsteps := ((ofContent_eq_iff hm).mpr ⟨hc, rfl⟩).1
  obtain rfl := Option.some.inj (Except.ok.inj (hsteps.symm.trans hr))
  exact hall

theorem admits_number_iff {p : NumberParts} (hn : s.operand = .number t (some p)) :
    r.Admits e s ↔ ∃ x, r.numbers p.entries = .ok x := by
  simp [Admits, hn]

/-- The literal of an invalid number stands in the content of some expression and is no number when
it is read alone. -/
theorem resolve_invalidNumber (hs : ∃ d pos w, Expression.Spelled d pos e w) {literal reason : String}
    (h : resolve ⟨lookup, .exact⟩ e = .error (.invalidNumber literal reason)) :
    (∃ e', e.Inside e' ∧ e'.HasNumber literal.toList) ∧
      ¬ ∃ x, Fraction.ofLiteral literal.toList = .ok x := by
  obtain ⟨e', inside, hraises⟩ := resolve_eq_error hs h
  cases hraises with
  | step hr hc ht hs h =>
    cases h with
    | @number t p _ hn h =>
      obtain ⟨u, x, v, -, -, hx⟩ := hc.operand_at hs
      rw [hn] at hx
      cases hx with
      | number hp =>
        rcases NumberReader.exact_cases (Numeral.ofLiteral_eq_some_iff.mpr ⟨hp, rfl⟩) with
          ⟨x, -, hx⟩ | ⟨fault, hf, hx⟩
        · cases hx.symm.trans h
        · obtain ⟨rfl, -⟩ := ResolveFault.invalidNumber.inj (Except.error.inj (hx.symm.trans h))
          rw [String.toList_ofList]
          refine ⟨⟨e', inside, _, _, _, hr, hs, hn⟩, ?_⟩
          rw [hf]
          exact nofun

/-- A number in the content of an expression is read as its text is alone. The text stands where the
step says, it is taken apart into the same parts, and the element of the step is the number of the
text or the fault that the text is no number. So a tree with a text that is no number does not
resolve; the fault names the text if what stands before it in the expression resolves, and no other
text is ever named. -/
theorem literal_read_alone (lookup : Lookup) {reading : Reading}
    (hr : Reading.ofContent e.content = .ok (some reading)) (hs : reading.steps = before ++ s :: after)
    (hn : s.operand = .number t parts) :
    (∃ u v, e.content = u ++ (t ++ v) ∧ u.length = s.offset) ∧
    (parts.isSome ∧ parts = NumberParts.ofLiteral t) ∧
    (∀ groups,
      (∃ x, Fraction.ofLiteral t = .ok x ∧
        element ⟨lookup, .exact⟩ e groups s = .ok (.number x, groups)) ∨
      ∃ fault, Fraction.ofLiteral t = .error (.arithmetic fault) ∧
        element ⟨lookup, .exact⟩ e groups s =
          .error (.invalidNumber (String.ofList t) fault.headline)) ∧
    ∀ settings raw tree, Tree.ofRaw settings raw = .ok tree → tree.root.Inside e →
      ((¬ ∃ x, Fraction.ofLiteral t = .ok x) → ¬ ∃ f, resolve ⟨lookup, .exact⟩ tree.root = .ok f) ∧
      ((∀ s' ∈ before, Resolves ⟨lookup, .exact⟩ e s') →
        ((∃ reason, resolve ⟨lookup, .exact⟩ e = .error (.invalidNumber (String.ofList t) reason)) ↔
          ¬ ∃ x, Fraction.ofLiteral t = .ok x)) ∧
      ∀ literal reason,
        resolve ⟨lookup, .exact⟩ tree.root = .error (.invalidNumber literal reason) →
        (∃ e', tree.root.Inside e' ∧ e'.HasNumber literal.toList) ∧
          ¬ ∃ x, Fraction.ofLiteral literal.toList = .ok x := by
  have mem : s ∈ reading.steps := hs ▸ List.mem_append_right _ (List.mem_cons_self ..)
  obtain ⟨stands, p, rfl, hp⟩ : (∃ u v, e.content = u ++ (t ++ v) ∧ 0 + u.length = s.offset) ∧
      ∃ p, parts = some p ∧ NumberParts.ofLiteral t = some p := by
    rcases Reading.ofContent_standsIn e.content with hnone | ⟨reading', hr', hall⟩
    · cases hnone.symm.trans hr
    · obtain rfl := Option.some.inj (Except.ok.inj (hr'.symm.trans hr))
      exact (hall s mem).number hn
  simp only [Nat.zero_add] at stands
  refine ⟨stands, ⟨rfl, hp.symm⟩, fun groups => ?_, fun settings raw tree htree inside => ?_⟩
  · rw [element_number hn]
    rcases NumberReader.exact_cases hp with ⟨x, hx, he⟩ | ⟨fault, hx, he⟩
    · exact .inl ⟨x, hx, by simp only [he]; rfl⟩
    · exact .inr ⟨fault, hx, by simp only [he]; rfl⟩
  · have spelled : ∃ d pos w, Expression.Spelled d pos tree.root w :=
      ⟨_, _, _, (Tree.ofRaw_eq_ok_iff.mp htree).2⟩
    obtain ⟨d, pos, w, hw⟩ := inside.spelled spelled
    refine ⟨fun hno hroot => ?_, fun hbefore => ⟨?_, fun hno => ?_⟩, fun literal reason h => ?_⟩
    · have resolves := resolves_of_ok hw.marked hr (resolve_ok_of_inside spelled hroot inside) s mem
      obtain ⟨x, hx⟩ := (admits_number_iff hn).mp resolves.1
      rcases NumberReader.exact_cases hp with ⟨y, hy, -⟩ | ⟨fault, -, he⟩
      · exact hno ⟨y, hy⟩
      · cases he.symm.trans hx
    · rintro ⟨reason, h⟩
      have := (resolve_invalidNumber ⟨d, pos, w, hw⟩ h).2
      rwa [String.toList_ofList] at this
    · rcases NumberReader.exact_cases hp with ⟨y, hy, -⟩ | ⟨fault, -, he⟩
      · exact absurd ⟨y, hy⟩ hno
      · refine ⟨fault.headline, resolve_eq_of_element_error hw.marked hr hs hbefore fun groups => ?_⟩
        rw [element_number hn]
        simp only [he]
        rfl
    · exact resolve_invalidNumber spelled h

/-- The exponent of `1-2E200000` is too large. -/
theorem literal_read_alone_large_exponent :
    ∃ t, Tree.ofRaw {} "1-2E200000" = .ok t ∧ ∃ reading before after parts,
      Reading.ofContent t.root.content = .ok (some reading) ∧ reading.steps = before ++
        ⟨some .subtract, false, .number "2E200000".toList parts, 2⟩ :: after ∧
      ∃ reason, resolve ⟨fun _ _ => none, .exact⟩ t.root =
        .error (.invalidNumber "2E200000" reason) := by
  have htree : Tree.ofRaw {} "1-2E200000" = .ok ⟨⟨"1-2E200000".toList, "1-2E200000".toList,
      List.range 10⟩, .mk 0 10 ("1-2E200000".toList.map .char)⟩ := by rfl
  have hr : Reading.ofContent ['1', '-', '2', 'E', '2', '0', '0', '0', '0', '0'] = .ok (some ⟨[
      ⟨none, false, .number ['1'] (some ⟨.integer, ['1'], none, none, none⟩), 0⟩,
      ⟨some .subtract, false, .number ['2', 'E', '2', '0', '0', '0', '0', '0']
        (some ⟨.scientific, ['2'], none, none, some ['2', '0', '0', '0', '0', '0']⟩), 2⟩], 10⟩) := by
    decide +kernel
  have large : Fraction.ofLiteral ['2', 'E', '2', '0', '0', '0', '0', '0'] =
      .error (.arithmetic (.domain "exponent 200000 exceeds 100000")) := by decide +kernel
  obtain ⟨-, -, -, inTree⟩ := literal_read_alone (fun _ _ => none)
    (e := .mk 0 10 ("1-2E200000".toList.map .char)) hr (rfl : _ = [_] ++ _ :: []) rfl
  obtain ⟨-, rejected, -⟩ := inTree {} "1-2E200000" _ htree .root
  refine ⟨_, htree, _, [_], [], _, hr, rfl, (rejected ?_).mpr ?_⟩
  · refine List.forall_mem_singleton.mpr ⟨⟨_, .ofInt 1, rfl, by decide +kernel⟩, List.forall_mem_nil _⟩
  · rw [large]
    exact nofun

end Resolver

end Reckon
