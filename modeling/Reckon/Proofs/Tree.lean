import Mathlib
import Reckon.Proofs.Scan

/-!
# The inputs that have a tree

An input has a text unless all of it is blank (`Text.ofRaw_eq_ok`), and the text has a tree when it
spells one (`Tree.ofRaw_eq_ok_iff`). So the inputs that have a tree are those that are not blank and
whose characters, without line breaks and gaps, are an expression of the grammar.
-/

namespace Reckon

/-- The characters of an input that matter. -/
def strippedChars (raw : String) : List Char :=
  raw.toList.filter fun c => !isLineBreak c && !isGap c

theorem not_lineBreak_gap {c : Char} (h : ¬ isBlank c) : (!isLineBreak c && !isGap c) = true := by
  have hl : isLineBreak c = false := Bool.eq_false_iff.mpr fun hl => h (isBlank_of_isLineBreak hl)
  have hg : isGap c = false := Bool.eq_false_iff.mpr fun hg => h (isBlank_of_isGap hg)
  rw [hl, hg]
  rfl

theorem strippedChars_ne_nil {raw : String} (h : ¬ raw.toList.all isBlank) : strippedChars raw ≠ [] := by
  rw [List.all_eq_true] at h
  push Not at h
  obtain ⟨c, hc, hb⟩ := h
  exact List.ne_nil_of_mem (List.mem_filter.mpr ⟨hc, not_lineBreak_gap hb⟩)

namespace Text

theorem map_fst_marked (line : List Char) :
    (marked line).map Prod.fst = line.filter fun c => !isGap c := by
  have := List.filter_map (f := Prod.fst) (p := fun c => !isGap c) (l := line.zipIdx)
  rw [List.zipIdx_map_fst] at this
  exact this.symm

/-- A line that is not blank has characters that matter. -/
theorem ofLine_eq_ok {line : List Char} (h : ¬ line.all isBlank) :
    ofLine line = .ok ⟨line, (marked line).map Prod.fst, (marked line).map Prod.snd⟩ := by
  have hne : (marked line).isEmpty = false := by
    rw [List.isEmpty_eq_false_iff]
    intro hm
    refine h (List.all_eq_true.mpr fun c hc => isBlank_of_isGap ?_)
    have := map_fst_marked line
    rw [hm, List.map_nil, eq_comm, List.filter_eq_nil_iff] at this
    simpa using this c hc
  simp only [ofLine, h, hne]
  rfl

/-- Line breaks are blank, so they do not make an input blank or not. -/
theorem all_isBlank_line (cs : List Char) :
    (cs.filter fun c => !isLineBreak c).all isBlank = cs.all isBlank := by
  rw [Bool.eq_iff_iff, List.all_eq_true, List.all_eq_true]
  constructor
  · intro h c hc
    by_cases hl : isLineBreak c
    · exact isBlank_of_isLineBreak hl
    · exact h c (List.mem_filter.mpr ⟨hc, by simpa using hl⟩)
  · exact fun h c hc => h c (List.mem_filter.mp hc).1

theorem ofRaw_eq_error {raw : String} (h : raw.toList.all isBlank) :
    ofRaw raw = .error .blankInput := by
  rw [ofRaw, ofLine, all_isBlank_line, if_pos h]

theorem ofRaw_eq_ok {raw : String} (h : ¬ raw.toList.all isBlank) :
    ∃ t, ofRaw raw = .ok t ∧ t.stripped = strippedChars raw := by
  rw [ofRaw, ofLine_eq_ok (by rwa [all_isBlank_line])]
  refine ⟨_, rfl, ?_⟩
  rw [map_fst_marked, List.filter_filter, strippedChars]
  exact List.filter_congr fun c _ => Bool.and_comm _ _

theorem stripped_ofRaw {raw : String} {t : Text} (h : ofRaw raw = .ok t) :
    t.stripped = strippedChars raw := by
  by_cases hb : raw.toList.all isBlank
  · rw [ofRaw_eq_error hb] at h
    cases h
  · obtain ⟨t', ht, hs⟩ := ofRaw_eq_ok hb
    rw [ht] at h
    exact Except.ok.inj h ▸ hs

/-- Each character that matters has its offset. -/
theorem length_ofRaw {raw : String} {t : Text} (h : ofRaw raw = .ok t) : t.length = t.stripped.length := by
  rw [ofRaw, ofLine] at h
  split at h
  · cases h
  · simp only at h
    split at h
    · cases h
    · obtain rfl := Except.ok.inj h
      rw [length, List.length_map, List.length_map]

theorem positionsOf_isEmpty (t : Text) (c : Char) :
    (t.positionsOf [c]).isEmpty ↔ c ∉ t.stripped := by
  rw [positionsOf, List.isEmpty_iff, List.map_eq_nil_iff, List.filter_eq_nil_iff]
  constructor
  · intro h hc
    obtain ⟨i, hi, rfl⟩ := List.getElem_of_mem hc
    exact h (t.stripped[i], i) (List.mk_mem_zipIdx_iff_getElem?.mpr (List.getElem?_eq_getElem hi)) (by simp)
  · rintro h ⟨d, i⟩ hd
    have : d ∈ t.stripped := (List.mem_zipIdx' hd).2 ▸ List.getElem_mem _
    simp only [List.contains_eq_mem, List.mem_singleton, decide_eq_true_eq]
    rintro rfl
    exact h this

end Text

namespace Tree

theorem ofText_eq_ok_iff {limit : Nat} {text : Text} {t : Tree} : ofText limit text = .ok t ↔
    t.text = text ∧ t.root.Spelled limit 0 text.stripped := by
  rw [ofText]
  by_cases hp : placeholder ∈ text.stripped
  · have hres : (text.positionsOf [placeholder]).isEmpty = false :=
      Bool.eq_false_iff.mpr fun h => (Text.positionsOf_isEmpty text placeholder).mp h hp
    simp only [hres, Bool.false_eq_true, if_false]
    constructor
    · exact nofun
    · rintro ⟨-, h⟩
      exact absurd hp (placeholder_not_mem (isExpression_of_spelled h))
  · have hres : (text.positionsOf [placeholder]).isEmpty = true :=
      (Text.positionsOf_isEmpty text placeholder).mpr hp
    simp only [hres, if_true]
    constructor
    · intro h
      cases he : Expression.ofStripped limit text.stripped with
      | error fault =>
        rw [he] at h
        cases h
      | ok e =>
        rw [he] at h
        obtain rfl := Except.ok.inj h
        exact ⟨rfl, (Expression.ofStripped_eq_ok_iff hp).mp he⟩
    · rintro ⟨rfl, h⟩
      rw [(Expression.ofStripped_eq_ok_iff hp).mpr h]
      rfl

/-- A tree has the text of its input, and that text spells it. -/
theorem ofRaw_eq_ok_iff {settings : Settings} {raw : String} {t : Tree} :
    ofRaw settings raw = .ok t ↔ Text.ofRaw raw = .ok t.text ∧
      t.root.Spelled settings.maxDepth 0 t.text.stripped := by
  rw [ofRaw]
  cases hx : Text.ofRaw raw with
  | error fault =>
    constructor
    · exact nofun
    · rintro ⟨h, -⟩
      cases h
  | ok text =>
    simp only [mapError_eq_ok_iff, ofText_eq_ok_iff, Except.ok.injEq]
    constructor
    · rintro ⟨rfl, h⟩
      exact ⟨rfl, h⟩
    · rintro ⟨rfl, h⟩
      exact ⟨rfl, h⟩

/-- The inputs that have a tree: they are not blank, and what matters of them is an expression whose
groups are not nested too deep. -/
theorem exists_ofRaw_eq_ok_iff (settings : Settings) (raw : String) :
    (∃ t, ofRaw settings raw = .ok t) ↔ ¬ raw.toList.all isBlank ∧
      Spelling.IsExpression settings.maxDepth (strippedChars raw) := by
  by_cases hb : raw.toList.all isBlank
  · constructor
    · rintro ⟨t, ht⟩
      rw [ofRaw, Text.ofRaw_eq_error hb] at ht
      cases ht
    · exact fun h => absurd hb h.1
  obtain ⟨text, hx, hs⟩ := Text.ofRaw_eq_ok hb
  constructor
  · rintro ⟨t, ht⟩
    obtain ⟨htext, hspelled⟩ := ofRaw_eq_ok_iff.mp ht
    rw [hx] at htext
    obtain rfl := Except.ok.inj htext
    exact ⟨hb, hs ▸ isExpression_of_spelled hspelled⟩
  · rintro ⟨-, h⟩
    obtain ⟨e, he⟩ := exists_spelled h 0
    exact ⟨⟨text, e⟩, ofRaw_eq_ok_iff.mpr ⟨hx, hs ▸ he⟩⟩

end Tree

end Reckon
