import Mathlib
import Reckon.Proofs.Viable

/-!
# A fault of reading shows what it blames

A fault of the scan names the character at which it arises, and brackets that were opened before.
Both stand in the text where the fault says (`ParseFault.Blames`): the former because a step fails
at its own character (`Scan.Holds.blames_of_step`), the latter because the open groups of a scan
stand in what it has read (`Scan.Frames.opening`). In particular a scan has no defect, since a draft
ends where the next character stands.
-/

namespace Reckon

/-- What the cause blames stands in `cs` where the cause says. -/
inductive ParseFault.Blames (cs : List Char) : ParseFault → Prop
  | reservedCharacter {positions : List Nat} (hne : positions ≠ [])
      (h : ∀ p ∈ positions, cs[p]? = some placeholder) :
      Blames cs (.reservedCharacter placeholder positions)
  | strayClose {b : Bracket} {p : Nat} (h : cs[p]? = some b.closing) :
      Blames cs (.strayClose b.closing p)
  | straySeparator {p : Nat} (h : cs[p]? = some separator) : Blames cs (.straySeparator p)
  | wrongClose {b b' : Bracket} {start p : Nat} (hb : b ≠ b') (hlt : start < p)
      (ho : cs[start]? = some b.opening) (hc : cs[p]? = some b'.closing) :
      Blames cs (.wrongClose b.closing b'.closing start p)
  | missingExpression {p : Nat}
      (h : cs[p]? = some separator ∨ ∃ b : Bracket, cs[p]? = some b.closing) :
      Blames cs (.missingExpression p)
  | unclosed {pending : List (Char × Nat)} (hne : pending ≠ [])
      (h : ∀ x ∈ pending, ∃ b : Bracket, x.1 = b.closing ∧ cs[x.2]? = some b.opening) :
      Blames cs (.unclosed pending)
  | tooDeep {b : Bracket} {limit p : Nat} (h : cs[p]? = some b.opening) :
      Blames cs (.tooDeep limit p)

namespace ParseFault

variable {cs : List Char} {fault : ParseFault}

theorem lt_of_stands {c : Char} {p : Nat} (h : cs[p]? = some c) : p < cs.length :=
  (List.getElem?_eq_some_iff.mp h).1

/-- Such a cause has positions to mark, and all of them are in the text. -/
theorem Blames.carets_lt (h : fault.Blames cs) : ∃ positions, fault.carets = some positions ∧
    positions ≠ [] ∧ ∀ p ∈ positions, p < cs.length := by
  have single {p : Nat} (hp : p < cs.length) : ∀ q ∈ [p], q < cs.length :=
    List.forall_mem_singleton.mpr hp
  cases h with
  | reservedCharacter hne h => exact ⟨_, rfl, hne, fun p hp => lt_of_stands (h p hp)⟩
  | strayClose h | straySeparator h | tooDeep h =>
    exact ⟨_, rfl, List.cons_ne_nil _ _, single (lt_of_stands h)⟩
  | missingExpression h =>
    refine ⟨_, rfl, List.cons_ne_nil _ _, single ?_⟩
    rcases h with h | ⟨b, h⟩ <;> exact lt_of_stands h
  | wrongClose _ hlt _ hc =>
    refine ⟨_, rfl, List.cons_ne_nil _ _, List.forall_mem_cons.mpr ⟨?_, single (lt_of_stands hc)⟩⟩
    exact hlt.trans (lt_of_stands hc)
  | unclosed hne h =>
    refine ⟨_, rfl, mt List.map_eq_nil_iff.mp hne, List.forall_mem_map.mpr fun x hx => ?_⟩
    obtain ⟨b, -, hb⟩ := h x hx
    exact lt_of_stands hb

end ParseFault

theorem getElem?_append_cons (u v : List Char) (c : Char) : (u ++ c :: v)[u.length]? = some c := by
  rw [List.getElem?_append_right le_rfl, Nat.sub_self]
  rfl

namespace Scan

variable {limit : Nat} {s : Scan} {c : Char} {w v : List Char} {fault : ParseFault}

/-- An open group stands in the text before the innermost level. -/
theorem Frames.opening {gs : List OpenGroup} (h : Frames limit gs w) {g : OpenGroup} (hg : g ∈ gs) :
    w[g.start]? = some g.bracket.opening := by
  induction h with
  | nil => cases hg
  | @cons _ g' gs w u v _ _ _ start _ ih =>
    rcases List.mem_cons.mp hg with rfl | hg
    · rw [start, ← List.append_assoc, ← List.length_append]
      exact getElem?_append_cons (w ++ u) v g.bracket.opening
    · have hin := ih hg
      rw [List.getElem?_append_left (ParseFault.lt_of_stands hin)]
      exact hin

theorem Holds.opening (h : Holds limit s w) {g : OpenGroup} (hg : g ∈ s.opened) :
    w[g.start]? = some g.bracket.opening := by
  obtain ⟨d, v, u, rfl, hf, -, -⟩ := h
  have hin := hf.opening hg
  rw [List.getElem?_append_left (ParseFault.lt_of_stands hin)]
  exact hin

/-! ### Steps -/

theorem Holds.plain_ne_error (h : Holds limit s w) : s.plain w.length c ≠ .error fault := by
  obtain ⟨current, gs⟩ := s
  obtain ⟨d, v, u, rfl, -, -, hu⟩ := h
  have hd := hu.drafted gs
  rw [List.length_append, plain, append_eq hd.stop]
  intro hs
  cases hs

theorem openGroup_blames {b : Bracket} (hs : s.openGroup limit w.length b = .error fault) :
    fault.Blames (w ++ b.opening :: v) := by
  rw [openGroup] at hs
  split at hs
  · obtain rfl := Except.error.inj hs
    exact .tooDeep (getElem?_append_cons w v b.opening)
  · cases hs

theorem separate_blames (hs : s.separate w.length = .error fault) :
    fault.Blames (w ++ separator :: v) := by
  have here := getElem?_append_cons w v separator
  obtain ⟨_ | d, _ | ⟨g, gs⟩⟩ := s
  case some.cons => cases hs
  case some.nil =>
    obtain rfl := Except.error.inj hs
    exact .straySeparator here
  all_goals
    obtain rfl := Except.error.inj hs
    exact .missingExpression (.inl here)

/-- The draft around a group ends where the group starts, so that the group can be added to it. -/
theorem Holds.closeGroup_eq_error {b : Bracket} (h : Holds limit s w)
    (hs : s.closeGroup w.length b = .error fault) :
    fault = .missingExpression w.length ∨ fault = .strayClose b.closing w.length ∨
      ∃ g ∈ s.opened, g.bracket ≠ b ∧
        fault = .wrongClose g.bracket.closing b.closing g.start w.length := by
  obtain ⟨d, v, u, -, hf, -, -⟩ := h
  obtain ⟨_ | draft, _ | ⟨g, gs⟩⟩ := s
  case some.cons =>
    by_cases hb : g.bracket = b
    · cases hf with
      | cons _ _ outer start _ =>
        obtain ⟨b', start', es, outer'⟩ := g
        obtain rfl : b' = b := hb
        have hstop : outer'.stop = start' := outer.stop.trans start.symm
        rw [closeGroup_eq hstop] at hs
        cases hs
    · simp only [closeGroup, if_neg hb] at hs
      exact .inr (.inr ⟨g, List.mem_cons_self, hb, (Except.error.inj hs).symm⟩)
  case some.nil => exact .inr (.inl (Except.error.inj hs).symm)
  all_goals exact .inl (Except.error.inj hs).symm

theorem Holds.closeGroup_blames {b : Bracket} (h : Holds limit s w)
    (hs : s.closeGroup w.length b = .error fault) : fault.Blames (w ++ b.closing :: v) := by
  have here := getElem?_append_cons w v b.closing
  rcases h.closeGroup_eq_error hs with rfl | rfl | ⟨g, hg, hb, rfl⟩
  · exact .missingExpression (.inr ⟨b, here⟩)
  · exact .strayClose here
  · have before := h.opening hg
    have hlt := ParseFault.lt_of_stands before
    refine .wrongClose hb hlt ?_ here
    rw [List.getElem?_append_left hlt]
    exact before

/-- A step fails at a character that stands where it says. The placeholder is not part of a text. -/
theorem Holds.blames_of_step (h : Holds limit s w) (hc : c ≠ placeholder)
    (hs : s.step limit w.length c = .error fault) : fault.Blames (w ++ c :: v) := by
  rcases char_cases c with hp | rfl | rfl | ⟨b, rfl⟩ | ⟨b, rfl⟩
  · exact absurd (step_plain hp ▸ hs) h.plain_ne_error
  · exact absurd rfl hc
  · exact separate_blames (step_separator ▸ hs)
  · exact openGroup_blames (step_opening b ▸ hs)
  · exact h.closeGroup_blames (step_closing b ▸ hs)

theorem Holds.blames_of_finish {n : Nat} (h : Holds limit s w) (hne : w ≠ [])
    (hs : s.finish n = .error fault) : fault.Blames w := by
  obtain ⟨hopened, rfl⟩ := h.finish_eq_error hne hs
  refine .unclosed (by simpa [pending] using hopened) fun x hx => ?_
  obtain ⟨g, hg, rfl⟩ := List.mem_map.mp hx
  exact ⟨g.bracket, rfl, h.opening (List.mem_reverse.mp hg)⟩

end Scan

/-! ### Texts -/

theorem Expression.ofStripped_blames {limit : Nat} {cs : List Char} {fault : ParseFault}
    (hcs : placeholder ∉ cs) (hne : cs ≠ []) (h : ofStripped limit cs = .error fault) :
    fault.Blames cs := by
  rcases ofStripped_eq_error hcs h with ⟨u, c, v, s, rfl, hc, -, holds, hstep⟩ | ⟨s, holds, hfinish⟩
  · exact holds.blames_of_step hc hstep
  · exact holds.blames_of_finish hne hfinish

namespace Tree

theorem ofText_blames {limit : Nat} {text : Text} {fault : ParseFault} (hne : text.stripped ≠ [])
    (h : ofText limit text = .error fault) : fault.Blames text.stripped := by
  rw [ofText] at h
  by_cases hres : (text.positionsOf [placeholder]).isEmpty
  · simp only [hres, if_true] at h
    have hcs := (Text.positionsOf_isEmpty text placeholder).mp hres
    exact Expression.ofStripped_blames hcs hne (map_eq_error h)
  · simp only [hres] at h
    obtain rfl := Except.error.inj h
    refine .reservedCharacter (mt List.isEmpty_iff.mpr hres) fun p hp => ?_
    obtain ⟨⟨c, i⟩, hmem, rfl⟩ := List.mem_map.mp hp
    obtain ⟨hin, hc⟩ := List.mem_filter.mp hmem
    have hc : c = placeholder := by simpa using hc
    exact hc ▸ List.mk_mem_zipIdx_iff_getElem?.mp hin

/-- An input without a tree is blank, or its text shows what the cause blames. -/
theorem ofRaw_eq_error {settings : Settings} {raw : String} {report : Report ParseFault}
    (h : ofRaw settings raw = .error report) : report = ⟨.blankInput, none⟩ ∨
      ∃ text fault, Text.ofRaw raw = .ok text ∧ fault.Blames text.stripped ∧
        report = text.report settings ParseFault.carets fault := by
  by_cases hb : raw.toList.all isBlank
  · rw [ofRaw, Text.ofRaw_eq_error hb] at h
    exact .inl (Except.error.inj h).symm
  · obtain ⟨text, hx, hs⟩ := Text.ofRaw_eq_ok hb
    rw [ofRaw, hx] at h
    obtain ⟨fault, ht, hreport⟩ := mapError_eq_error h
    have hne : text.stripped ≠ [] := hs ▸ strippedChars_ne_nil hb
    exact .inr ⟨text, fault, hx, ofText_blames hne ht, hreport.symm⟩

end Tree

end Reckon
