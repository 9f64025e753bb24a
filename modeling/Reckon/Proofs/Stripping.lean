import Mathlib
import Reckon.Proofs.Tree

/-!
# The text of an input

What a text keeps of its input is told by `Text.Faithful`, without the way it is found: the line is
the input without its line breaks, and the offsets are those of all characters that are no gaps, in
increasing order, so there is one such text (`Text.Faithful.unique`). It is the text of every input
that is not blank (`Text.ofRaw_faithful`). A line can hold blanks of other kinds than gaps, which are
kept, but a line of these alone is blank nevertheless.
-/

namespace Reckon

theorem isGap_iff {c : Char} : isGap c ↔ c = ' ' ∨ c = '\t' := by
  rw [isGap, Bool.or_eq_true, beq_iff_eq, beq_iff_eq]

theorem isLineBreak_iff {c : Char} : isLineBreak c ↔ c ∈ lineBreaks := by
  rw [isLineBreak, List.contains_iff_mem]

namespace Text

variable {raw : String} {t t' : Text} {cs : List Char} {c : Char} {offset : Nat}

/-- The text says where on the line of `raw` all that is no gap stands. -/
structure Faithful (t : Text) (raw : String) : Prop where
  line_eq : t.line = raw.toList.filter fun c => c ∉ lineBreaks
  length_eq : t.offsets.length = t.stripped.length
  increasing : t.offsets.Pairwise (· < ·)
  /-- A character of the stripped text is the one at its offset. -/
  char_eq : ∀ i offset : Nat, t.offsets[i]? = some offset → t.line[offset]? = t.stripped[i]?
  /-- The offsets that are left out are those of the gaps. -/
  missing_iff : ∀ offset < t.line.length,
    offset ∉ t.offsets ↔ t.line[offset]? = some ' ' ∨ t.line[offset]? = some '\t'
  ne_nil : t.stripped ≠ []
  visible : ∀ c ∈ t.stripped, c ≠ ' ' ∧ c ≠ '\t' ∧ c ∉ lineBreaks

/-! ### One text for an input -/

namespace Faithful

theorem lt_length (h : t.Faithful raw) (ho : offset ∈ t.offsets) : offset < t.line.length := by
  obtain ⟨i, hi, rfl⟩ := List.getElem_of_mem ho
  have hs : i < t.stripped.length := h.length_eq ▸ hi
  have hline := h.char_eq i _ (List.getElem?_eq_getElem hi)
  rw [List.getElem?_eq_getElem hs] at hline
  exact (List.getElem?_eq_some_iff.mp hline).1

theorem mem_offsets_iff (h : t.Faithful raw) : offset ∈ t.offsets ↔
    offset < t.line.length ∧ ¬ (t.line[offset]? = some ' ' ∨ t.line[offset]? = some '\t') := by
  constructor
  · exact fun ho => ⟨h.lt_length ho, fun hgap => (h.missing_iff _ (h.lt_length ho)).mpr hgap ho⟩
  · rintro ⟨hlt, hgap⟩
    by_contra ho
    exact hgap ((h.missing_iff _ hlt).mp ho)

theorem unique (h : t.Faithful raw) (h' : t'.Faithful raw) : t = t' := by
  have hline : t.line = t'.line := h.line_eq.trans h'.line_eq.symm
  have hoffsets : t.offsets = t'.offsets := by
    refine h.increasing.eq_of_mem_iff h'.increasing fun offset => ?_
    rw [h.mem_offsets_iff, h'.mem_offsets_iff, hline]
  have hstripped : t.stripped = t'.stripped := by
    refine List.ext_getElem? fun i => ?_
    rcases ho : t.offsets[i]? with _ | offset
    · have hle := List.getElem?_eq_none_iff.mp ho
      rw [List.getElem?_eq_none (h.length_eq ▸ hle),
        List.getElem?_eq_none (h'.length_eq ▸ hoffsets ▸ hle)]
    · rw [← h.char_eq i offset ho, ← h'.char_eq i offset (hoffsets ▸ ho), hline]
  obtain ⟨l, s, o⟩ := t
  cases hline
  cases hstripped
  cases hoffsets
  rfl

end Faithful

/-! ### The characters that are no gaps -/

theorem mem_marked : (c, offset) ∈ marked cs ↔ cs[offset]? = some c ∧ ¬ isGap c := by
  rw [marked, List.mem_filter, List.mk_mem_zipIdx_iff_getElem?, Bool.not_eq_true',
    Bool.eq_false_iff]

theorem pairwise_marked (cs : List Char) : ((marked cs).map Prod.snd).Pairwise (· < ·) := by
  have all : (cs.zipIdx.map Prod.snd).Pairwise (· < ·) := by
    rw [List.zipIdx_map_snd]
    exact List.pairwise_lt_range'
  rw [List.pairwise_map] at all ⊢
  exact all.filter _

theorem mem_map_snd_marked (h : offset < cs.length) : offset ∈ (marked cs).map Prod.snd ↔
    ¬ (cs[offset]? = some ' ' ∨ cs[offset]? = some '\t') := by
  rw [List.getElem?_eq_getElem h, Option.some.injEq, Option.some.injEq, ← isGap_iff, List.mem_map]
  constructor
  · rintro ⟨⟨c, offset⟩, hc, rfl⟩
    obtain ⟨hline, hgap⟩ := mem_marked.mp hc
    rw [List.getElem?_eq_getElem h] at hline
    exact Option.some.inj hline ▸ hgap
  · exact fun hgap => ⟨(cs[offset], offset), mem_marked.mpr ⟨List.getElem?_eq_getElem h, hgap⟩, rfl⟩

/-- The text that is found is the one that is told. -/
theorem faithful_of_ofRaw (h : ofRaw raw = .ok t) : t.Faithful raw := by
  have hb : ¬ raw.toList.all isBlank := by
    intro hb
    rw [ofRaw_eq_error hb] at h
    cases h
  have hstripped := stripped_ofRaw h
  have hlength := length_ofRaw h
  rw [ofRaw, ofLine_eq_ok (by rwa [all_isBlank_line])] at h
  have ht := (Except.ok.inj h).symm
  have hline : t.line = raw.toList.filter fun c => !isLineBreak c := congrArg Text.line ht
  have hoffsets : t.offsets = (marked t.line).map Prod.snd := by
    rw [ht]
  have hchars : t.stripped = (marked t.line).map Prod.fst := by
    rw [ht]
  refine ⟨?_, hlength, hoffsets ▸ pairwise_marked _, ?_, ?_, ?_, ?_⟩
  · rw [hline]
    exact List.filter_congr fun c _ => by rw [isLineBreak, decide_not, List.contains_eq_mem]
  · intro i offset ho
    rw [hoffsets, List.getElem?_map] at ho
    obtain ⟨⟨c, _⟩, hi, rfl⟩ := Option.map_eq_some_iff.mp ho
    rw [hchars, List.getElem?_map, hi]
    exact (mem_marked.mp (List.mem_of_getElem? hi)).1
  · intro offset ho
    rw [hoffsets, mem_map_snd_marked ho, not_not]
  · rw [hstripped]
    exact strippedChars_ne_nil hb
  · intro c hc
    rw [hstripped, strippedChars, List.mem_filter, Bool.and_eq_true, Bool.not_eq_true',
      Bool.not_eq_true', Bool.eq_false_iff, Bool.eq_false_iff, Ne, Ne, isLineBreak_iff,
      isGap_iff, not_or] at hc
    exact ⟨hc.2.2.1, hc.2.2.2, hc.2.1⟩

/-- An input is empty if all its characters are blank. Any other one has a text, the only one that is
faithful to it. -/
theorem ofRaw_faithful (raw : String) :
    (ofRaw raw = .error .blankInput ↔ ∀ c ∈ raw.toList, isBlank c) ∧
      ((∃ t, ofRaw raw = .ok t) ↔ ∃ c ∈ raw.toList, ¬ isBlank c) ∧
      ∀ t, ofRaw raw = .ok t ↔ (∃ c ∈ raw.toList, ¬ isBlank c) ∧ t.Faithful raw := by
  by_cases hb : raw.toList.all isBlank
  · have herror := ofRaw_eq_error hb
    have all := List.all_eq_true.mp hb
    have none : ¬ ∃ c ∈ raw.toList, ¬ isBlank c := fun ⟨c, hc, h⟩ => h (all c hc)
    refine ⟨⟨fun _ => all, fun _ => herror⟩, ⟨?_, fun h => absurd h none⟩, fun t => ⟨?_, ?_⟩⟩
    · rintro ⟨t, ht⟩
      cases herror.symm.trans ht
    · exact fun ht => nomatch herror.symm.trans ht
    · exact fun h => absurd h.1 none
  · obtain ⟨t, ht, -⟩ := ofRaw_eq_ok hb
    have some : ∃ c ∈ raw.toList, ¬ isBlank c := by
      rw [List.all_eq_true] at hb
      push Not at hb
      exact hb
    refine ⟨⟨?_, fun h => absurd (List.all_eq_true.mpr h) hb⟩, ⟨fun _ => some, fun _ => ⟨t, ht⟩⟩,
      fun t' => ⟨fun ht' => ⟨some, faithful_of_ofRaw ht'⟩, fun h => ?_⟩⟩
    · exact fun herror => nomatch ht.symm.trans herror
    · rw [ht, (faithful_of_ofRaw ht).unique h.2]

example : ofRaw "1 +\n 2" = .ok ⟨['1', ' ', '+', ' ', '2'], ['1', '+', '2'], [0, 2, 4]⟩ := by rfl

end Text

end Reckon
