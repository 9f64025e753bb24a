import Mathlib
import Reckon.Proofs.Tree

/-!
# Faults are found at the first character that rules out a tree

What a scan has read can always be completed: one more character for the draft, then the closing
brackets of the open groups, the innermost first (`Scan.Holds.complete`). So a character at which a
step fails is the first one behind which no continuation helps, since the scan of any text that
starts in the same way fails there too (`Scan.run_append`).

A scan that reaches the end fails only if groups are open, which blames no character
(`Scan.Holds.finish_eq_error`).
-/

namespace Reckon

namespace Scan

variable {limit : Nat} {s s' : Scan} {position p : Nat} {c : Char} {fault : ParseFault}

/-! ### What was read can be completed -/

/-- An expression behind the text of the open groups is the last one of the innermost of them, and
their brackets can be closed one after the other. -/
theorem Frames.complete {d : Nat} {gs : List OpenGroup} {e : Expression} {v u : List Char}
    (hf : Frames limit gs v) (hl : gs.length + d = limit) (h : Expression.Spelled d v.length e u) :
    ∃ root, Expression.Spelled limit 0 root (v ++ (u ++ gs.map fun g => g.bracket.closing)) := by
  induction hf generalizing d e u with
  | nil =>
    obtain rfl : d = limit := by simpa using hl
    exact ⟨e, by simpa using h⟩
  | @cons d' g gs w₀ u₀ v₀ hf hl' outer start children ih =>
    obtain rfl : d = d' := by simp only [List.length_cons] at hl; omega
    rw [length_frame start] at h
    have around := (outer.close (b := g.bracket) start children h).spelled (List.cons_ne_nil _ _)
    obtain ⟨root, hroot⟩ := ih hl' around
    exact ⟨root, by simpa using hroot⟩

theorem Holds.complete {w : List Char} (h : Holds limit s w) :
    Spelling.IsExpression limit (w ++ '1' :: s.opened.map fun g => g.bracket.closing) := by
  obtain ⟨current, gs⟩ := s
  obtain ⟨d, v, u, rfl, hf, hl, hu⟩ := h
  have one : Item.SpelledAll d (v.length + u.length) [.char '1'] ['1'] := .char (by decide) .nil
  have draft := ((hu.drafted gs).append one rfl).spelled (List.cons_ne_nil _ _)
  obtain ⟨root, hroot⟩ := hf.complete hl draft
  have := isExpression_of_spelled hroot
  rwa [List.append_assoc u, List.singleton_append, ← List.append_assoc v] at this

/-! ### A step fails at its own character -/

theorem append_culprit {d : Draft} {i : Item} (h : d.append position i = .error fault) :
    fault.culprit? = none := by
  rw [Draft.append] at h
  split at h
  · cases h
  · obtain rfl := Except.error.inj h
    rfl

theorem plain_culprit (h : s.plain position c = .error fault) : fault.culprit? = none := by
  rw [plain] at h
  cases hd : (s.draft position).append position (.char c) with
  | ok d => rw [hd] at h; cases h
  | error fault' =>
    rw [hd] at h
    obtain rfl := Except.error.inj h
    exact append_culprit hd

theorem openGroup_culprit {b : Bracket} (h : s.openGroup limit position b = .error fault) :
    fault.culprit? = some position := by
  rw [openGroup] at h
  split at h
  · obtain rfl := Except.error.inj h
    rfl
  · cases h

theorem separate_culprit (h : s.separate position = .error fault) :
    fault.culprit? = some position := by
  obtain ⟨_ | d, _ | ⟨g, gs⟩⟩ := s
  case some.cons => cases h
  all_goals
    obtain rfl := Except.error.inj h
    rfl

theorem closeGroup_culprit {b : Bracket} (h : s.closeGroup position b = .error fault)
    (hp : fault.culprit? = some p) : p = position := by
  obtain ⟨_ | d, _ | ⟨g, gs⟩⟩ := s
  case some.cons =>
    simp only [closeGroup] at h
    split at h
    · cases ha : g.outer.append g.start
          (.group (.mk b g.start position (d.finish :: g.children).reverse)) with
      | ok outer => rw [ha] at h; cases h
      | error fault' =>
        rw [ha] at h
        obtain rfl := Except.error.inj h
        rw [append_culprit ha] at hp
        cases hp
    · obtain rfl := Except.error.inj h
      exact (Option.some.inj hp).symm
  all_goals
    obtain rfl := Except.error.inj h
    exact (Option.some.inj hp).symm

theorem step_culprit (h : s.step limit position c = .error fault) (hp : fault.culprit? = some p) :
    p = position := by
  rw [step] at h
  split at h
  · exact (Option.some.inj (hp.symm.trans (separate_culprit h)))
  · split at h
    · exact (Option.some.inj (hp.symm.trans (openGroup_culprit h)))
    · exact closeGroup_culprit h hp
    · rw [plain_culprit h] at hp
      cases hp

/-! ### Where a run fails -/

theorem run_append {u : List Char} (h : run limit u position s = .ok s') (v : List Char) :
    run limit (u ++ v) position s = run limit v (position + u.length) s' := by
  induction u generalizing position s with
  | nil =>
    obtain rfl : s = s' := Except.ok.inj h
    rfl
  | cons c u ih =>
    rw [run] at h
    rw [List.cons_append, run, List.length_cons, Nat.add_comm u.length, ← Nat.add_assoc]
    cases hs : s.step limit position c with
    | error fault => rw [hs] at h; cases h
    | ok s₁ =>
      rw [hs] at h
      exact ih h

/-- A run that fails has a first character at which a step does. -/
theorem run_eq_error {cs : List Char} (h : run limit cs position s = .error fault) :
    ∃ u c v s', cs = u ++ c :: v ∧ run limit u position s = .ok s' ∧
      s'.step limit (position + u.length) c = .error fault := by
  induction cs generalizing position s with
  | nil => cases h
  | cons c cs ih =>
    rw [run] at h
    cases hs : s.step limit position c with
    | error fault' =>
      rw [hs] at h
      obtain rfl := Except.error.inj h
      exact ⟨[], c, cs, s, rfl, rfl, hs⟩
    | ok s₁ =>
      rw [hs] at h
      obtain ⟨u, c', v, s', rfl, hrun, hstep⟩ := ih h
      refine ⟨c :: u, c', v, s', rfl, ?_, ?_⟩
      · rw [run, hs]
        exact hrun
      · rwa [List.length_cons, Nat.add_comm u.length, ← Nat.add_assoc]

/-- At the end of a text there is a draft or an open group. -/
theorem Holds.finish_eq_error {w : List Char} {n : Nat} (h : Holds limit s w) (hne : w ≠ [])
    (hs : s.finish n = .error fault) : s.opened ≠ [] ∧ fault = .unclosed s.pending := by
  obtain ⟨current, gs⟩ := s
  obtain ⟨d, v, u, rfl, hf, -, hu⟩ := h
  cases hf with
  | nil =>
    cases current with
    | none =>
      obtain rfl : u = [] := hu
      exact absurd rfl hne
    | some draft => cases hs
  | cons _ _ _ _ _ => exact ⟨List.cons_ne_nil _ _, (Except.error.inj hs).symm⟩

end Scan

/-! ### Texts -/

/-- A scan fails at a character or at the end, and knows what it has read until then. -/
theorem Expression.ofStripped_eq_error {limit : Nat} {cs : List Char} {fault : ParseFault}
    (hcs : placeholder ∉ cs) (h : ofStripped limit cs = .error fault) :
    (∃ u c v s, cs = u ++ c :: v ∧ c ≠ placeholder ∧ Scan.run limit u 0 .start = .ok s ∧
      Scan.Holds limit s u ∧ s.step limit u.length c = .error fault) ∨
    ∃ s, Scan.Holds limit s cs ∧ s.finish cs.length = .error fault := by
  rw [ofStripped] at h
  cases hrun : Scan.run limit cs 0 .start with
  | ok s =>
    rw [hrun] at h
    exact .inr ⟨s, Scan.holds_run (w := []) Scan.holds_start hcs hrun, h⟩
  | error fault' =>
    rw [hrun] at h
    obtain rfl := Except.error.inj h
    obtain ⟨u, c, v, s, rfl, hu, hstep⟩ := Scan.run_eq_error hrun
    obtain ⟨hcu, hcv⟩ := not_or.mp (mt List.mem_append.mpr hcs)
    rw [Nat.zero_add] at hstep
    exact .inl ⟨u, c, v, s, rfl, fun hc => hcv (hc ▸ List.mem_cons_self), hu,
      Scan.holds_run (w := []) Scan.holds_start hcu hu, hstep⟩

/-- If a character is blamed, what stands before it can be completed, and with it nothing can. -/
theorem Expression.ofStripped_culprit {limit p : Nat} {cs : List Char} {fault : ParseFault}
    (hcs : placeholder ∉ cs) (hne : cs ≠ []) (h : ofStripped limit cs = .error fault)
    (hp : fault.culprit? = some p) :
    p < cs.length ∧
      (∃ closers : List Bracket, Spelling.IsExpression limit
        (cs.take p ++ '1' :: closers.map Bracket.closing)) ∧
      ∀ v, ¬ Spelling.IsExpression limit (cs.take (p + 1) ++ v) := by
  rcases ofStripped_eq_error hcs h with ⟨u, c, v, s, rfl, -, hu, holds, hstep⟩ | ⟨s, holds, hfinish⟩
  · obtain rfl : p = u.length := Scan.step_culprit hstep hp
    have before : (u ++ c :: v).take u.length = u := List.take_left
    have upto : (u ++ c :: v).take (u.length + 1) = u ++ [c] := by
      rw [List.take_append, List.take_of_length_le (Nat.le_succ _), Nat.add_sub_cancel_left]
      rfl
    rw [before, upto]
    refine ⟨by simp, ⟨s.opened.map OpenGroup.bracket, ?_⟩, fun v' hv => ?_⟩
    · rw [List.map_map]
      exact holds.complete
    · -- a text that starts in the same way is read to the same state, and fails at `c`
      obtain ⟨e, he⟩ := exists_spelled hv 0
      have hok := (ofStripped_eq_ok_iff (placeholder_not_mem hv)).mpr he
      rw [ofStripped, List.append_assoc, Scan.run_append hu, List.singleton_append, Scan.run,
        Nat.zero_add, hstep] at hok
      cases hok
  · obtain ⟨-, rfl⟩ := holds.finish_eq_error hne hfinish
    cases hp

/-! ### Inputs -/

/-- What is left of an input, with visible characters behind it, loses nothing more. -/
theorem strippedChars_append {raw : String} {n : Nat} {v : List Char} (hv : ∀ c ∈ v, ¬ isBlank c) :
    strippedChars (String.ofList ((strippedChars raw).take n ++ v)) =
      (strippedChars raw).take n ++ v := by
  rw [strippedChars, String.toList_ofList, List.filter_eq_self]
  intro c hc
  rcases List.mem_append.mp hc with hc | hc
  · exact (List.mem_filter.mp (List.mem_of_mem_take hc)).2
  · exact not_lineBreak_gap (hv c hc)

namespace Tree

/-- A text without a tree has the placeholder in it, or its scan fails. -/
theorem ofText_scanned {limit : Nat} {text : Text} {fault : ParseFault}
    (h : ofText limit text = .error fault) :
    (placeholder ∈ text.stripped ∧ ∃ positions, fault = .reservedCharacter placeholder positions) ∨
      placeholder ∉ text.stripped ∧ Expression.ofStripped limit text.stripped = .error fault := by
  rw [ofText] at h
  by_cases hres : (text.positionsOf [placeholder]).isEmpty
  · simp only [hres, if_true] at h
    exact .inr ⟨(Text.positionsOf_isEmpty text placeholder).mp hres, map_eq_error h⟩
  · simp only [hres] at h
    refine .inl ⟨?_, _, (Except.error.inj h).symm⟩
    by_contra hp
    exact hres ((Text.positionsOf_isEmpty text placeholder).mpr hp)

/-- An input without a tree is blank, has the placeholder in it, or its scan fails. -/
theorem ofRaw_scanned {settings : Settings} {raw : String} {report : Report ParseFault}
    (h : ofRaw settings raw = .error report) :
    (raw.toList.all isBlank ∧ report.cause = .blankInput) ∨
      (placeholder ∈ strippedChars raw ∧
        ∃ positions, report.cause = .reservedCharacter placeholder positions) ∨
      ¬ raw.toList.all isBlank ∧ placeholder ∉ strippedChars raw ∧
        Expression.ofStripped settings.maxDepth (strippedChars raw) = .error report.cause := by
  by_cases hb : raw.toList.all isBlank
  · rw [ofRaw, Text.ofRaw_eq_error hb] at h
    obtain rfl := Except.error.inj h
    exact .inl ⟨hb, rfl⟩
  · obtain ⟨text, hx, hs⟩ := Text.ofRaw_eq_ok hb
    rw [ofRaw, hx] at h
    obtain ⟨fault, ht, rfl⟩ := mapError_eq_error h
    rw [← hs]
    exact .inr ((ofText_scanned ht).imp_right fun h => ⟨hb, h⟩)

/-- Only the scan blames a character. -/
theorem ofRaw_culprit {settings : Settings} {p : Nat} {raw : String} {report : Report ParseFault}
    (h : ofRaw settings raw = .error report) (hp : report.cause.culprit? = some p) :
    ¬ raw.toList.all isBlank ∧ placeholder ∉ strippedChars raw ∧
      Expression.ofStripped settings.maxDepth (strippedChars raw) = .error report.cause := by
  rcases ofRaw_scanned h with ⟨-, hc⟩ | ⟨-, _, hc⟩ | hscan
  · rw [hc] at hp
    cases hp
  · rw [hc] at hp
    cases hp
  · exact hscan

/-- A fault that blames a character blames the first one behind which no continuation is accepted:
what stands before it can be continued to an input that has a tree, and no input that starts with
this and the character itself has one. -/
theorem ofRaw_culprit_earliest {settings : Settings} {raw : String} {report : Report ParseFault}
    {p : Nat} (h : ofRaw settings raw = .error report) (hp : report.cause.culprit? = some p) :
    p < (strippedChars raw).length ∧
      (∃ v t, ofRaw settings (String.ofList ((strippedChars raw).take p ++ v)) = .ok t) ∧
      ∀ raw', (strippedChars raw).take (p + 1) <+: strippedChars raw' →
        ∀ t, ofRaw settings raw' ≠ .ok t := by
  obtain ⟨hb, hcs, hstripped⟩ := ofRaw_culprit h hp
  obtain ⟨hlt, ⟨closers, hcomplete⟩, hnone⟩ :=
    Expression.ofStripped_culprit hcs (strippedChars_ne_nil hb) hstripped hp
  refine ⟨hlt, ⟨'1' :: closers.map Bracket.closing, ?_⟩, fun raw' hraw t ht => ?_⟩
  · have visible : ∀ c ∈ '1' :: closers.map Bracket.closing, ¬ isBlank c := by
      rw [List.forall_mem_cons, List.forall_mem_map]
      exact ⟨by decide, fun b _ => by cases b <;> decide⟩
    have blank : ¬ (String.ofList
        ((strippedChars raw).take p ++ '1' :: closers.map Bracket.closing)).toList.all isBlank := by
      rw [String.toList_ofList, List.all_append, List.all_cons, show isBlank '1' = false from rfl]
      simp
    obtain ⟨text, hx, hs⟩ := Text.ofRaw_eq_ok blank
    rw [strippedChars_append visible] at hs
    obtain ⟨e, he⟩ := exists_spelled hcomplete 0
    exact ⟨⟨text, e⟩, ofRaw_eq_ok_iff.mpr ⟨hx, hs ▸ he⟩⟩
  · obtain ⟨htext, hroot⟩ := ofRaw_eq_ok_iff.mp ht
    obtain ⟨v, hv⟩ := hraw
    rw [Text.stripped_ofRaw htext, ← hv] at hroot
    exact hnone v (isExpression_of_spelled hroot)

theorem ofRaw_culprit_wrong_bracket :
    ∃ report, ofRaw {} "f(a, [b)]" = .error report ∧ report.cause.culprit? = some 6 ∧
      6 < (strippedChars "f(a, [b)]").length ∧
      (∃ v t, ofRaw {} (String.ofList ((strippedChars "f(a, [b)]").take 6 ++ v)) = .ok t) ∧
      ∀ raw', (strippedChars "f(a, [b)]").take 7 <+: strippedChars raw' →
        ∀ t, ofRaw {} raw' ≠ .ok t := by
  obtain ⟨drawing, h⟩ : ∃ drawing, ofRaw {} "f(a, [b)]" =
      .error ⟨.wrongClose ']' ')' 4 6, drawing⟩ := ⟨_, rfl⟩
  exact ⟨_, h, rfl, ofRaw_culprit_earliest h rfl⟩

end Tree

end Reckon
