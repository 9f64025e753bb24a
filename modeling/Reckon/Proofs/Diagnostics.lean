import Mathlib
import Reckon.Proofs.Carets
import Reckon.Proofs.Culprit
import Reckon.Proofs.Position
import Reckon.Proofs.Raises

/-!
# Every fault with a position is drawn, at its culprit

A drawing succeeds if all positions are in the text (`Text.draw_eq_ok`), so a report of such
positions never has the empty drawing that stands for a failure. The positions of a fault of reading
are in the text since what it blames stands there (`ParseFault.Blames.carets_lt`). Those of a fault
of the resolver come out of the content of some expression inside of the tree: the content is
spelled by a part of the text, and so is what an offset in it is mapped to
(`Resolver.Raises.blames`).

The reader of numbers is a parameter, which is asked for the numbers of the tree. It may only answer
that a number is not valid, which names no position.
-/

namespace Reckon

/-! ### Drawings -/

theorem caretView_ne_empty (label : String) (line : List Char) (positions : List Nat)
    (showIndex : Bool) : caretView label line positions showIndex ≠ "" := by
  simp [caretView, String.append_eq_empty_iff]

/-- The report has the drawing of all positions of its cause, of which there is one at least. -/
structure Report.Drawn {Cause : Type} (report : Report Cause) (t : Text) (settings : Settings)
    (positions : List Nat) : Prop where
  ne_nil : positions ≠ []
  lt_length : ∀ p ∈ positions, p < t.length
  drawing : ∃ drawing, t.draw settings.caretMode settings.showIndex positions = .ok drawing ∧
    drawing ≠ "" ∧ report.diagnostic = some drawing

namespace Text

variable {t : Text} {positions : List Nat}

theorem draw_eq_ok (h : ∀ p ∈ positions, p < t.length) (mode : CaretMode) (showIndex : Bool) :
    ∃ drawing, t.draw mode showIndex positions = .ok drawing ∧ drawing ≠ "" := by
  rw [draw_inside h]
  refine ⟨_, rfl, ?_⟩
  rw [views]
  split
  · exact caretView_ne_empty _ _ _ _
  · exact caretView_ne_empty _ _ _ _
  · intro hempty
    have := (String.append_eq_empty_iff.mp (String.append_eq_empty_iff.mp hempty).1).1
    exact caretView_ne_empty _ _ _ _ this

theorem report_drawn {Cause : Type} {settings : Settings} {carets : Cause → Option (List Nat)}
    {cause : Cause} (hc : carets cause = some positions) (hne : positions ≠ [])
    (h : ∀ p ∈ positions, p < t.length) :
    (t.report settings carets cause).Drawn t settings positions := by
  obtain ⟨drawing, hd, hempty⟩ := draw_eq_ok h settings.caretMode settings.showIndex
  refine ⟨hne, h, drawing, hd, hempty, ?_⟩
  rw [report, hc, Option.map_some, diagnostic, hd]

end Text

/-! ### Faults of the resolver -/

/-- What the cause blames stands in the text of the tree where the cause says. -/
inductive ResolveFault.Blames (t : Tree) : ResolveFault → Prop
  | noOperand {e : Expression} (he : t.root.Inside e) (h : e.start < t.text.stripped.length) :
      Blames t (.noOperand e.start)
  | strayContent {e : Expression} {n : Nat} (he : t.root.Inside e) (hn : n < e.content.length)
      (h : e.realPosition n < t.text.stripped.length) : Blames t (.strayContent (e.realPosition n))
  | unknownFunction {name : String} {arity p : Nat} {b : Bracket}
      (h : name.toList ++ [b.opening] <+: t.text.stripped.drop p) :
      Blames t (.unknownFunction name arity p)
  | ambiguousGroup {e : Expression} {g : Group} (he : t.root.Inside e) (hg : g ∈ e.groups)
      (hd : 2 ≤ g.dimension) (h : t.text.stripped[g.start]? = some g.bracket.opening) :
      Blames t (.ambiguousGroup g.dimension g.start)

theorem ResolveFault.Blames.caret_lt {t : Tree} {fault : ResolveFault} (h : fault.Blames t) :
    ∃ p, fault.carets = some [p] ∧ p < t.text.stripped.length := by
  cases h with
  | noOperand _ h | strayContent _ _ h => exact ⟨_, rfl, h⟩
  | unknownFunction h =>
    refine ⟨_, rfl, ?_⟩
    have := h.length_le
    simp only [List.length_append, List.length_cons, List.length_drop] at this
    omega
  | ambiguousGroup _ _ _ h => exact ⟨_, rfl, ParseFault.lt_of_stands h⟩

theorem prefix_drop_of_part {text u x v y : List Char} {n : Nat}
    (htext : text = u ++ (x ++ v)) (h : y <+: x.drop n) : y <+: text.drop (u.length + n) := by
  rw [htext, ← List.drop_drop, List.drop_left, List.drop_append]
  exact h.trans (List.prefix_append _ _)

/-- A group starts with its bracket and has an expression at least. -/
theorem Group.Spelled.opening {d pos : Nat} {g : Group} {x : List Char} (h : g.Spelled d pos x) :
    g.start = pos ∧ 1 ≤ g.dimension ∧ x[0]? = some g.bracket.opening := by
  cases h with
  | mk h => exact ⟨rfl, List.length_pos_iff.mpr h.ne_nil, rfl⟩

/-- The content of an expression of the tree is read with a number in it, which stands in the text and
has the parts `p`. -/
inductive Tree.HasNumber (t : Tree) (p : NumberParts) : Prop
  | mk {e : Expression} {reading : Reading} {s : Step} (inside : t.root.Inside e)
      (hr : Reading.ofContent e.content = .ok (some reading)) (hs : s ∈ reading.steps)
      (hn : s.operand = .number p.entries.literal (some p))
      (h : p.entries.literal <+: t.text.stripped.drop (e.realPosition s.offset)) : HasNumber t p

namespace Resolver

variable {r : Resolver} {t : Tree} {d : Nat} {e : Expression} {s : Step} {steps : List Step}
  {fault : ResolveFault} {u v w x : List Char}

theorem StepRaises.blames (he : t.root.Inside e) (htext : t.text.stripped = u ++ (x ++ v))
    (hx : e.Spelled d u.length x) (hc : Content steps w) {rest : List Char}
    (hr : Reading.ofContent e.content = .ok (some ⟨steps, w.length⟩))
    (hw : e.content = w ++ rest) (hs : s ∈ steps) (h : r.StepRaises e s fault) :
    (∃ p, t.HasNumber p ∧ r.numbers p.entries = .error fault) ∨ fault.Blames t := by
  cases h with
  | @ambiguousGroup g _ hg hd =>
    have hmem : g ∈ e.groups := groups_subset s e (hg ▸ List.mem_singleton_self g)
    obtain ⟨u', y, v', rfl, hgroup⟩ := hx.group_of_mem hmem
    obtain ⟨hstart, hone, hopening⟩ := hgroup.opening
    refine .inr (.ambiguousGroup he hmem (by omega) ?_)
    have before : t.text.stripped = (u ++ u') ++ (y ++ (v' ++ v)) := by
      rw [htext]
      simp only [List.append_assoc]
    rw [hstart, before, ← List.length_append, List.getElem?_append_right le_rfl, Nat.sub_self,
      List.getElem?_append_left (ParseFault.lt_of_stands hopening)]
    exact hopening
  | @unknownFunction name n arity ho ha hf =>
    obtain ⟨a, y, b, rfl, hoffset, hy⟩ := hc.operand_at hs
    rw [ho] at hy
    cases hy with
    | @call _ n hname =>
      have hp : placeholder ∉ name := fun hp => absurd (hname.isNamePart _ hp) (by decide)
      have hcontent : e.content =
          a ++ (name ++ placeholder :: (List.replicate n placeholder ++ b ++ rest)) := by
        rw [hw, List.replicate_succ]
        simp
      obtain ⟨k, bracket, hpos, hprefix⟩ := hx.call_prefix hcontent hp
      refine .inr (.unknownFunction (b := bracket) ?_)
      rw [String.toList_ofList, ← hoffset, hpos]
      exact prefix_drop_of_part htext hprefix
  | @number literal p _ hn h =>
    obtain ⟨a, y, b, rfl, hoffset, hy⟩ := hc.operand_at hs
    rw [hn] at hy
    cases hy with
    | number hp =>
      have hcontent : e.content = a ++ (p.entries.literal ++ (b ++ rest)) := by
        rw [hw]
        simp only [List.append_assoc]
      obtain ⟨k, hpos, hprefix⟩ := hx.plain_prefix hcontent hp.placeholder_not_mem
      refine .inl ⟨p, .mk he hr hs hn ?_, h⟩
      rw [← hoffset, hpos]
      exact prefix_drop_of_part htext hprefix

/-- What an expression inside of a tree raises is blamed where it stands. -/
theorem Raises.blames (hroot : t.root.Spelled d 0 t.text.stripped) (he : t.root.Inside e)
    (h : r.Raises e fault) :
    (∃ p, t.HasNumber p ∧ r.numbers p.entries = .error fault) ∨ fault.Blames t := by
  obtain ⟨d', u, x, v, htext, hx⟩ := he.spelled_part hroot
  rw [Nat.zero_add] at hx
  have hlength : t.text.stripped.length = u.length + x.length + v.length := by
    rw [htext, List.length_append, List.length_append, Nat.add_assoc]
  cases h with
  | noOperand =>
    have := List.length_pos_iff.mpr hx.ne_nil
    exact .inr (.noOperand he (by rw [hx.start_eq]; omega))
  | @strayContent steps w rest _ hw hne =>
    have hlt : w.length < e.content.length := by
      rw [hw, List.length_append]
      exact Nat.lt_add_of_pos_right (List.length_pos_iff.mpr hne)
    have := hx.realPosition_lt hlt
    exact .inr (.strayContent he hlt (by omega))
  | step hr hc hw hs h => exact h.blames he htext hx hc hr hw hs

end Resolver

/-! ### Reports -/

theorem NumberReader.exact_lawful : NumberReader.exact.Lawful := by
  intro entries fault h
  simp only [exact] at h
  split at h
  · exact ⟨_, _, (Except.error.inj h).symm⟩
  · split at h
    · exact ⟨_, _, (Except.error.inj h).symm⟩
    · cases h

/-- A report on an input without a tree, unless the input is blank, has a drawing of the positions
of its cause, and what the cause blames stands there. So does a report on a tree without a formula,
unless it is the answer of the reader of numbers to a number of the tree, which has no position if it
is one that a reader may give. -/
theorem Report.drawn_at_culprit (settings : Settings) (raw : String) :
    (∀ report, Tree.ofRaw settings raw = .error report → report = ⟨.blankInput, none⟩ ∨
      ∃ text positions, Text.ofRaw raw = .ok text ∧ report.cause.carets = some positions ∧
        report.Drawn text settings positions ∧ report.cause.Blames text.stripped) ∧
    ∀ t, Tree.ofRaw settings raw = .ok t →
      ∀ (r : Resolver) (settings' : Settings) (report : Report ResolveFault),
        r.ofTree settings' t = .error report →
        ((∃ p, t.HasNumber p ∧ r.numbers p.entries = .error report.cause) ∨
          ∃ p, report.cause.carets = some [p] ∧ report.Drawn t.text settings' [p] ∧
            report.cause.Blames t) ∧
        (r.numbers.Lawful → (∃ literal reason, report = ⟨.invalidNumber literal reason, none⟩) ∨
          ∃ p, report.cause.carets = some [p] ∧ report.Drawn t.text settings' [p] ∧
            report.cause.Blames t) := by
  constructor
  · intro report h
    rcases Tree.ofRaw_eq_error h with rfl | ⟨text, fault, htext, hblames, rfl⟩
    · exact .inl rfl
    · obtain ⟨positions, hc, hne, hlt⟩ := hblames.carets_lt
      rw [← Text.length_ofRaw htext] at hlt
      exact .inr ⟨text, positions, htext, hc, Text.report_drawn hc hne hlt, hblames⟩
  · intro t ht r settings' report h
    obtain ⟨htext, hroot⟩ := Tree.ofRaw_eq_ok_iff.mp ht
    obtain ⟨fault, hfault, rfl⟩ := mapError_eq_error h
    obtain ⟨e, he, hraises⟩ := Resolver.resolve_eq_error ⟨_, _, _, hroot⟩ hfault
    rcases hraises.blames hroot he with ⟨p, hp, hanswer⟩ | hblames
    · refine ⟨.inl ⟨p, hp, hanswer⟩, fun hl => ?_⟩
      obtain ⟨literal, reason, rfl⟩ := hl p.entries fault hanswer
      exact .inl ⟨literal, reason, rfl⟩
    · obtain ⟨p, hc, hlt⟩ := hblames.caret_lt
      rw [← Text.length_ofRaw htext] at hlt
      have drawn : (t.text.report settings' ResolveFault.carets fault).Drawn t.text settings' [p] :=
        Text.report_drawn hc (List.cons_ne_nil _ _) (List.forall_mem_singleton.mpr hlt)
      exact ⟨.inr ⟨p, hc, drawn, hblames⟩, fun _ => .inr ⟨p, hc, drawn, hblames⟩⟩

theorem Report.drawn_at_two_dimensions :
    ∃ t report, Tree.ofRaw {} "2*[1, 2]" = .ok t ∧
      Resolver.ofTree ⟨fun _ _ => none, .exact⟩ {} t = .error report ∧
      report.cause = .ambiguousGroup 2 2 ∧ report.Drawn t.text {} [2] ∧ report.cause.Blames t := by
  obtain ⟨t, ht⟩ : ∃ t, t = (⟨⟨['2', '*', '[', '1', ',', ' ', '2', ']'],
      ['2', '*', '[', '1', ',', '2', ']'], [0, 1, 2, 3, 4, 6, 7]⟩,
      .mk 0 7 [.char '2', .char '*', .group (.mk .square 2 6
        [.mk 3 4 [.char '1'], .mk 5 6 [.char '2']])]⟩ : Tree) := ⟨_, rfl⟩
  have hraw : Tree.ofRaw {} "2*[1, 2]" = .ok t := by
    rw [ht]
    rfl
  have ambiguous : (match Resolver.ofTree ⟨fun _ _ => none, .exact⟩ {} t with
      | .error report => decide (report.cause = .ambiguousGroup 2 2)
      | .ok _ => false) = true := by
    rw [ht]
    decide +kernel
  rcases hr : Resolver.ofTree ⟨fun _ _ => none, .exact⟩ {} t with report | f
  · rw [hr] at ambiguous
    have hcause : report.cause = .ambiguousGroup 2 2 := of_decide_eq_true ambiguous
    rcases ((drawn_at_culprit {} "2*[1, 2]").2 t hraw _ {} report hr).2 NumberReader.exact_lawful
      with ⟨literal, reason, rfl⟩ | ⟨p, hp, hdrawn, hblames⟩
    · cases hcause
    · rw [hcause] at hp
      obtain rfl : 2 = p := by simpa [ResolveFault.carets] using hp
      exact ⟨t, report, hraw, hr, hcause, hdrawn, hblames⟩
  · rw [hr] at ambiguous
    cases ambiguous

end Reckon
