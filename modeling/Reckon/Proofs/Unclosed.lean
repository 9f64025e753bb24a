import Mathlib
import Reckon.Proofs.Brackets
import Reckon.Proofs.Culprit

/-!
# Groups that are left open

The groups that are open when a text ends are the opening brackets without a partner. What stands
between two of them, and behind the last one, was read as drafts and finished expressions, so it is
balanced: brackets in it have their partners there (`Scan.Frames.closed`), and cannot be those of an
open group before it (`Scan.Frames.not_isClosed`). A draft that is continued by one character lets
all open groups be closed (`Scan.Holds.complete`).

A text that can be completed blames no character, so if it has no tree then because groups are open.
-/

namespace Reckon

namespace Scan

variable {limit : Nat} {s : Scan} {gs : List OpenGroup} {g : OpenGroup} {b : Bracket}
  {w x : List Char} {p : Nat} {fault : ParseFault}

/-! ### What was read besides the brackets of open groups -/

theorem Listed.balanced {d pos : Nat} {es : List Expression} (h : Listed d pos es w) :
    Balanced w := by
  induction h with
  | nil => exact .nil
  | cons h _ ih =>
    exact (balanced_of_isExpression (isExpression_of_spelled h)).append (.char (by decide) ih)

theorem Held.balanced {d pos : Nat} {current : Option Draft} (h : Held d pos current w) :
    Balanced w := by
  rcases current with _ | draft
  · obtain rfl : w = [] := h
    exact .nil
  · exact h.1.items.balanced

/-- An opening bracket is closed or that of an open group. -/
theorem Frames.closed (h : Frames limit gs w) (hp : w[p]? = some b.opening) :
    IsClosed w p ∨ ∃ g ∈ gs, g.bracket = b ∧ g.start = p := by
  induction h generalizing p with
  | nil => cases hp
  | @cons d g gs w u v _ _ outer start children ih =>
    rcases getElem?_append_cases hp with hp | ⟨q, rfl, hq⟩
    · rcases ih hp with h | ⟨g', hg', h⟩
      · exact .inl (h.append_right _)
      · exact .inr ⟨g', List.mem_cons_of_mem g hg', h⟩
    · rcases getElem?_append_cases hq with hu | ⟨r, rfl, hr⟩
      · exact .inl (((outer.items.balanced.closed hu).append_right _).append_left w)
      · rcases r with _ | r
        · exact .inr ⟨g, List.mem_cons_self, opening_injective (Option.some.inj hr), start⟩
        · have inner := (children.balanced.closed hr).append_left [g.bracket.opening]
          rw [List.length_singleton, Nat.add_comm] at inner
          exact .inl ((inner.append_left u).append_left w)

/-- The bracket of an open group is not closed by anything that keeps to its own brackets. -/
theorem Frames.not_isClosed (h : Frames limit gs w) (hx : Rising x) (hg : g ∈ gs) :
    ¬ IsClosed (w ++ x) g.start := by
  induction h generalizing x with
  | nil => cases hg
  | @cons d g' gs w u v _ _ outer start children ih =>
    have later : Rising (v ++ x) := children.balanced.rising.append hx
    rcases List.mem_cons.mp hg with rfl | hg
    · rw [start, ← List.length_append, ← List.append_assoc w, List.append_assoc (w ++ u),
        List.cons_append]
      exact later.not_isClosed (w ++ u) g.bracket
    · rw [List.append_assoc w, List.append_assoc u, List.cons_append]
      exact ih (outer.items.balanced.rising.append (later.opening g'.bracket)) hg

theorem Frames.start_lt (h : Frames limit gs w) (hg : g ∈ gs) : g.start < w.length :=
  ParseFault.lt_of_stands (h.opening hg)

/-- Of two open groups the inner one starts behind the other. -/
theorem Frames.decreasing (h : Frames limit gs w) : (gs.map OpenGroup.start).Pairwise (· > ·) := by
  induction h with
  | nil => exact .nil
  | @cons d g gs w u v outer _ _ start _ ih =>
    refine List.pairwise_cons.mpr ⟨List.forall_mem_map.mpr fun g' hg' => ?_, ih⟩
    rw [start]
    exact (outer.start_lt hg').trans_le (Nat.le_add_right _ _)

/-! ### The groups that are pending -/

theorem mem_pending {c : Char} : (c, p) ∈ s.pending ↔
    ∃ g ∈ s.opened, g.bracket.closing = c ∧ g.start = p := by
  simp only [pending, List.mem_map, List.mem_reverse, Prod.mk.injEq]

theorem map_fst_pending (s : Scan) :
    s.pending.reverse.map Prod.fst = s.opened.map fun g => g.bracket.closing := by
  rw [pending, ← List.map_reverse, List.reverse_reverse, List.map_map]
  rfl

theorem map_snd_pending (s : Scan) :
    s.pending.map Prod.snd = (s.opened.map OpenGroup.start).reverse := by
  rw [pending, List.map_map, ← List.map_reverse]
  rfl

theorem Holds.pending_increasing (h : Holds limit s w) :
    (s.pending.map Prod.snd).Pairwise (· < ·) := by
  obtain ⟨d, v, u, -, hf, -, -⟩ := h
  rw [map_snd_pending, List.pairwise_reverse]
  exact hf.decreasing

/-- Pending are the opening brackets that are not closed. -/
theorem Holds.mem_pending_iff (h : Holds limit s w) {c : Char} : (c, p) ∈ s.pending ↔
    ∃ b : Bracket, c = b.closing ∧ w[p]? = some b.opening ∧ ¬ IsClosed w p := by
  rw [mem_pending]
  have opening {g : OpenGroup} (hg : g ∈ s.opened) := h.opening hg
  obtain ⟨d, v, u, rfl, hf, -, hu⟩ := h
  constructor
  · rintro ⟨g, hg, rfl, rfl⟩
    exact ⟨g.bracket, rfl, opening hg, hf.not_isClosed hu.balanced.rising hg⟩
  · rintro ⟨b, rfl, hp, hopen⟩
    rcases getElem?_append_cases hp with hv | ⟨q, rfl, hq⟩
    · rcases hf.closed hv with hclosed | ⟨g, hg, rfl, hstart⟩
      · exact absurd (hclosed.append_right u) hopen
      · exact ⟨g, hg, rfl, hstart⟩
    · exact absurd ((hu.balanced.closed hq).append_left v) hopen

/-! ### Where a scan ends with open groups -/

/-- A step that fails blames its own character. -/
theorem Holds.culprit_of_step {c : Char} (h : Holds limit s w) (hc : c ≠ placeholder)
    (hs : s.step limit w.length c = .error fault) : fault.culprit? = some w.length := by
  rcases char_cases c with hp | rfl | rfl | ⟨b, rfl⟩ | ⟨b, rfl⟩
  · exact absurd (step_plain hp ▸ hs) h.plain_ne_error
  · exact absurd rfl hc
  · exact separate_culprit (step_separator ▸ hs)
  · exact openGroup_culprit (step_opening b ▸ hs)
  · rcases h.closeGroup_eq_error (step_closing b ▸ hs) with rfl | rfl | ⟨_, _, _, rfl⟩ <;> rfl

end Scan

/-- If the scan fails without blaming a character, it has read the text, and groups are open. -/
theorem Expression.ofStripped_unclosed {limit : Nat} {cs : List Char} {fault : ParseFault}
    (hcs : placeholder ∉ cs) (hne : cs ≠ []) (h : ofStripped limit cs = .error fault)
    (hblames : fault.culprit? = none) :
    ∃ s, Scan.Holds limit s cs ∧ fault = .unclosed s.pending := by
  rcases ofStripped_eq_error hcs h with ⟨u, c, v, s, rfl, hc, -, holds, hstep⟩ | ⟨s, holds, hfinish⟩
  · have culprit := holds.culprit_of_step hc hstep
    rw [hblames] at culprit
    cases culprit
  · exact ⟨s, holds, (holds.finish_eq_error hne hfinish).2⟩

/-! ### Inputs -/

theorem strippedChars_append_visible (raw : String) {v : List Char} (hv : ∀ c ∈ v, ¬ isBlank c) :
    strippedChars (raw ++ String.ofList v) = strippedChars raw ++ v := by
  have keeps : (v.filter fun c => !isLineBreak c && !isGap c) = v :=
    List.filter_eq_self.mpr fun c hc => not_lineBreak_gap (hv c hc)
  rw [strippedChars, String.toList_append, List.filter_append, String.toList_ofList, keeps]
  rfl

namespace Tree

variable {settings : Settings} {raw : String}

theorem exists_of_isExpression (hb : ¬ raw.toList.all isBlank)
    (h : Spelling.IsExpression settings.maxDepth (strippedChars raw)) :
    ∃ t, ofRaw settings raw = .ok t := by
  obtain ⟨text, hx, hs⟩ := Text.ofRaw_eq_ok hb
  obtain ⟨e, he⟩ := exists_spelled h 0
  exact ⟨⟨text, e⟩, ofRaw_eq_ok_iff.mpr ⟨hx, hs ▸ he⟩⟩

theorem isExpression_of_ofRaw {t : Tree} (h : ofRaw settings raw = .ok t) :
    Spelling.IsExpression settings.maxDepth (strippedChars raw) := by
  obtain ⟨htext, hroot⟩ := ofRaw_eq_ok_iff.mp h
  exact Text.stripped_ofRaw htext ▸ isExpression_of_spelled hroot

/-- What the scan knows at the end of an input that leaves groups open. -/
theorem ofRaw_unclosed_holds {report : Report ParseFault} {pending : List (Char × Nat)}
    (h : ofRaw settings raw = .error report) (hcause : report.cause = .unclosed pending) :
    ∃ s, Scan.Holds settings.maxDepth s (strippedChars raw) ∧ s.pending = pending := by
  rcases ofRaw_scanned h with ⟨-, hc⟩ | ⟨-, _, hc⟩ | ⟨hb, hcs, hscan⟩
  · rw [hcause] at hc
    cases hc
  · rw [hcause] at hc
    cases hc
  · rw [hcause] at hscan
    obtain ⟨s, holds, hs⟩ :=
      Expression.ofStripped_unclosed hcs (strippedChars_ne_nil hb) hscan rfl
    injection hs with hs
    exact ⟨s, holds, hs.symm⟩

/-- One character for the draft and the brackets that are pending complete the input. -/
theorem exists_ofRaw_completed {s : Scan}
    (h : Scan.Holds settings.maxDepth s (strippedChars raw)) :
    ∃ t, ofRaw settings (raw ++ "1" ++ String.ofList (s.pending.reverse.map Prod.fst)) = .ok t := by
  have closers : ∀ c ∈ s.pending.reverse.map Prod.fst, ¬ isBlank c := by
    rw [Scan.map_fst_pending, List.forall_mem_map]
    exact fun g _ => by cases g.bracket <;> decide
  have one : ∀ c ∈ ['1'], ¬ isBlank c := List.forall_mem_singleton.mpr (by decide)
  refine exists_of_isExpression ?_ ?_
  · rw [String.toList_append, String.toList_append, List.all_append, List.all_append]
    rw [show ("1".toList.all isBlank) = false from rfl]
    simp
  · rw [strippedChars_append_visible _ closers]
    rw [show strippedChars (raw ++ "1") = strippedChars raw ++ ['1'] from
      strippedChars_append_visible raw one]
    rw [List.append_assoc, Scan.map_fst_pending]
    exact h.complete

/-- A text that can be completed blames no character, and has no placeholder. -/
theorem ofRaw_unclosed_of_completed {raw' : String} {t' : Tree} {report : Report ParseFault}
    (hb : ¬ raw.toList.all isBlank) (hpre : strippedChars raw <+: strippedChars raw')
    (ht' : ofRaw settings raw' = .ok t') (h : ofRaw settings raw = .error report) :
    ∃ pending, report.cause = .unclosed pending := by
  have complete := isExpression_of_ofRaw ht'
  obtain ⟨v, hv⟩ := hpre
  rw [← hv] at complete
  rcases ofRaw_scanned h with ⟨hblank, -⟩ | ⟨hp, -⟩ | ⟨-, hcs, hscan⟩
  · exact absurd hblank hb
  · exact absurd (List.mem_append_left v hp) (placeholder_not_mem complete)
  · have hne := strippedChars_ne_nil hb
    rcases hculprit : report.cause.culprit? with _ | p
    · obtain ⟨s, -, hs⟩ := Expression.ofStripped_unclosed hcs hne hscan hculprit
      exact ⟨s.pending, hs⟩
    · obtain ⟨-, -, hnone⟩ := Expression.ofStripped_culprit hcs hne hscan hculprit
      refine absurd complete ?_
      rw [← List.take_append_drop (p + 1) (strippedChars raw), List.append_assoc]
      exact hnone _

/-- The groups that an input leaves open are the opening brackets that are not closed, the outermost
first, and with one character and the brackets of these the input has a tree. If something completes
an input that has no tree, then open groups are what is wrong with it. -/
theorem ofRaw_unclosed (settings : Settings) (raw : String) :
    (∀ report pending, ofRaw settings raw = .error report → report.cause = .unclosed pending →
      (pending.map Prod.snd).Pairwise (· < ·) ∧
      (∀ c p, (c, p) ∈ pending ↔ ∃ b : Bracket, c = b.closing ∧
        (strippedChars raw)[p]? = some b.opening ∧ ¬ IsClosed (strippedChars raw) p) ∧
      ∃ t, ofRaw settings
        (raw ++ "1" ++ String.ofList (pending.reverse.map Prod.fst)) = .ok t) ∧
    (¬ raw.toList.all isBlank →
      (∃ raw' t, strippedChars raw <+: strippedChars raw' ∧ ofRaw settings raw' = .ok t) →
      (∀ t, ofRaw settings raw ≠ .ok t) →
        ∃ report pending, ofRaw settings raw = .error report ∧ report.cause = .unclosed pending) := by
  constructor
  · intro report pending h hcause
    obtain ⟨s, holds, rfl⟩ := ofRaw_unclosed_holds h hcause
    exact ⟨holds.pending_increasing, fun c p => holds.mem_pending_iff, exists_ofRaw_completed holds⟩
  · rintro hb ⟨raw', t', hpre, ht'⟩ hnone
    rcases h : ofRaw settings raw with report | t
    · obtain ⟨pending, hcause⟩ := ofRaw_unclosed_of_completed hb hpre ht' h
      exact ⟨report, pending, rfl, hcause⟩
    · exact absurd h (hnone t)

theorem ofRaw_unclosed_two_groups :
    ∃ report, ofRaw {} "{4-5}*(2-3*[" = .error report ∧
      report.cause = .unclosed [(')', 6), (']', 11)] ∧
      (∀ c p, (c, p) ∈ [(')', 6), (']', 11)] ↔ ∃ b : Bracket, c = b.closing ∧
        (strippedChars "{4-5}*(2-3*[")[p]? = some b.opening ∧
        ¬ IsClosed (strippedChars "{4-5}*(2-3*[") p) ∧
      (∃ t, ofRaw {} ("{4-5}*(2-3*[" ++ "1" ++ "])") = .ok t) ∧
      ∃ report' pending, ofRaw {} "{4-5}*(2-3*[" = .error report' ∧
        report'.cause = .unclosed pending := by
  obtain ⟨drawing, h⟩ : ∃ drawing, ofRaw {} "{4-5}*(2-3*[" =
      .error ⟨.unclosed [(')', 6), (']', 11)], drawing⟩ := ⟨_, rfl⟩
  obtain ⟨exact, converse⟩ := ofRaw_unclosed {} "{4-5}*(2-3*["
  obtain ⟨-, hpending, t, ht⟩ := exact _ _ h rfl
  refine ⟨_, h, rfl, hpending, ⟨t, ht⟩, converse (by decide) ⟨_, t, by decide, ht⟩ fun t' ht' => ?_⟩
  rw [h] at ht'
  cases ht'

end Tree

end Reckon
