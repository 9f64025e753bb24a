import Mathlib
import Reckon.Proofs.Stripping
import Reckon.Text.Caret

/-!
# Reading marks back from a drawing

A drawing shows a text in one view or two. A `View` is told without the drawing: what it shows, and
where in it the characters of the stripped text stand (`View.Shows`), and from that alone which
columns have to be marked (`View.Marked`). Every view that is shown is marked in this way, in two
lines of its own (`Text.draw_readable`), so whoever has the drawing can tell the marked positions
(`View.read`).

In a line of marks the carets stand between an indent and an index that hold none
(`getElem?_between`), and nothing but blanks is cut behind the last of them (`getElem?_caretLine`).
-/

namespace Reckon

/-! ### Views -/

/-- What a drawing shows of a text: a labelled line, and the offsets on it of the characters of the
stripped text. -/
structure View where
  label : String
  chars : List Char
  offsets : List Nat

namespace View

def textLine (v : View) : List Char := v.label.toList ++ ([':', ' '] ++ v.chars)

/-- The column of a character of the stripped text. -/
def column (v : View) (position : Nat) : Option Nat :=
  v.offsets[position]?.map (v.label.length + 2 + ·)

/-- The positions that have a caret in their column. -/
def read (v : View) (marks : List Char) : List Nat :=
  (List.range v.offsets.length).filter fun p =>
    ((v.column p).bind fun n => marks[n]?) == some '^'

/-- The line of marks that belongs to some positions of `t`. -/
structure Marked (v : View) (t : Text) (positions : List Nat) (showIndex : Bool)
    (marks : List Char) : Prop where
  /-- The carets stand in the columns of the positions. -/
  caret_iff : ∀ n : Nat, marks[n]? = some '^' ↔ ∃ p ∈ positions, v.column p = some n
  /-- Above each of them is the character that was marked. -/
  above : ∀ p ∈ positions, ∃ n : Nat, v.column p = some n ∧ v.textLine[n]? = t.stripped[p]?
  read_iff : ∀ p, p ∈ v.read marks ↔ p ∈ positions
  /-- The index is the largest offset that is marked. -/
  index : showIndex → positions ≠ [] → ∃ last : Nat,
    IsGreatest {o | ∃ p ∈ positions, v.offsets[p]? = some o} last ∧
      ' ' :: last.repr.toList <:+ marks

/-- The view holds each character of the stripped text, in order and on one line. -/
structure Shows (v : View) (t : Text) : Prop where
  length_eq : v.offsets.length = t.stripped.length
  increasing : v.offsets.Pairwise (· < ·)
  char_eq : ∀ p offset : Nat, v.offsets[p]? = some offset → v.chars[offset]? = t.stripped[p]?
  label_line : '\n' ∉ v.label.toList
  chars_line : '\n' ∉ v.chars

end View

namespace Text

def lineView (t : Text) : View := ⟨"original", t.line, t.offsets⟩

def strippedView (t : Text) : View := ⟨"stripped", t.stripped, List.range t.length⟩

/-- The views that a drawing has. -/
def shown (t : Text) (mode : CaretMode) : List View :=
  if t.line = t.stripped then [t.strippedView]
  else match mode with
    | .line => [t.lineView]
    | .stripped => [t.strippedView]
    | .both => [t.lineView, t.strippedView]

end Text

/-! ### Lines of marks -/

section
variable {α : Type} {u v w : List α} {a : α} {n : Nat}

theorem getElem?_between (hu : a ∉ u) (hw : a ∉ w) :
    (u ++ (v ++ w))[n]? = some a ↔ ∃ i, n = u.length + i ∧ v[i]? = some a := by
  constructor
  · intro h
    rcases Nat.lt_or_ge n u.length with hn | hn
    · rw [List.getElem?_append_left hn] at h
      exact absurd (List.mem_of_getElem? h) hu
    · rw [List.getElem?_append_right hn] at h
      refine ⟨n - u.length, (Nat.add_sub_cancel' hn).symm, ?_⟩
      rcases Nat.lt_or_ge (n - u.length) v.length with hv | hv
      · rwa [List.getElem?_append_left hv] at h
      · rw [List.getElem?_append_right hv] at h
        exact absurd (List.mem_of_getElem? h) hw
  · rintro ⟨i, rfl, hi⟩
    have hlt := (List.getElem?_eq_some_iff.mp hi).1
    rw [List.getElem?_append_right (Nat.le_add_right _ _), Nat.add_sub_cancel_left,
      List.getElem?_append_left hlt, hi]

end

section
variable {cs : List Char} {places : List Nat} {n : Nat}

theorem getElem?_caretCells : (caretCells cs places)[n]? = some '^' ↔ n < cs.length ∧ n ∈ places := by
  rw [caretCells, List.getElem?_map, List.getElem?_zipIdx, Option.map_map]
  rcases Nat.lt_or_ge n cs.length with hn | hn
  · rw [List.getElem?_eq_getElem hn]
    by_cases hp : n ∈ places
    · simp [hn, hp]
    · by_cases ht : cs[n] = '\t' <;> simp [hp, ht]
  · simp [hn]

theorem mem_caretCells {c : Char} (h : c ∈ caretCells cs places) : c = '^' ∨ c = '\t' ∨ c = ' ' := by
  obtain ⟨p, -, rfl⟩ := List.mem_map.mp h
  split
  · exact .inl rfl
  · split
    · exact .inr (.inl rfl)
    · exact .inr (.inr rfl)

theorem caretCells_eq (cs : List Char) (places : List Nat) :
    ∃ blanks, caretCells cs places = caretLine cs places ++ blanks ∧ ∀ c ∈ blanks, isBlank c :=
  ⟨_, List.rdropWhile_append_rtakeWhile.symm, fun _ hc => List.mem_rtakeWhile_imp hc⟩

theorem getElem?_caretLine : (caretLine cs places)[n]? = some '^' ↔ n < cs.length ∧ n ∈ places := by
  obtain ⟨blanks, hcells, hblank⟩ := caretCells_eq cs places
  have hnot : '^' ∉ blanks := fun h => absurd (hblank _ h) (by decide)
  have hiff := getElem?_between (u := []) (v := caretLine cs places) (n := n) List.not_mem_nil hnot
  rw [← getElem?_caretCells, hcells]
  rw [List.nil_append] at hiff
  simp [hiff]

theorem mem_caretLine {c : Char} (h : c ∈ caretLine cs places) : c = '^' ∨ c = '\t' ∨ c = ' ' := by
  obtain ⟨blanks, hcells, -⟩ := caretCells_eq cs places
  exact mem_caretCells (hcells ▸ List.mem_append_left _ h)

theorem mem_caretIndex {c : Char} (h : c ∈ (caretIndex places).toList) : c = ' ' ∨ c.isDigit := by
  rw [caretIndex] at h
  split at h
  · exact absurd h (by simp)
  · rw [String.toList_append, List.mem_append, Nat.toList_repr] at h
    rcases h with h | h
    · exact .inl (List.mem_singleton.mp h)
    · exact .inr (Nat.isDigit_of_mem_toDigits (by decide) (by decide) h)

end

/-! ### The marks of a view -/

namespace View

variable {v : View} {t : Text} {positions : List Nat} {showIndex : Bool} {p q n offset : Nat}

/-- The offsets of some positions. -/
def places (v : View) (positions : List Nat) : List Nat :=
  positions.filterMap fun p => v.offsets[p]?

/-- What is written behind the carets. -/
def tail (v : View) (positions : List Nat) (showIndex : Bool) : List Char :=
  if showIndex then (caretIndex (v.places positions)).toList else []

def markLine (v : View) (positions : List Nat) (showIndex : Bool) : List Char :=
  List.replicate (v.label.length + 2) ' ' ++
    (caretLine v.chars (v.places positions) ++ v.tail positions showIndex)

theorem mem_places : offset ∈ v.places positions ↔ ∃ p ∈ positions, v.offsets[p]? = some offset :=
  List.mem_filterMap

theorem column_eq_some_iff : v.column p = some n ↔
    ∃ offset, v.offsets[p]? = some offset ∧ v.label.length + 2 + offset = n :=
  Option.map_eq_some_iff

theorem toList_caretView (v : View) (positions : List Nat) (showIndex : Bool) :
    (caretView v.label v.chars (v.places positions) showIndex).toList =
      v.textLine ++ '\n' :: v.markLine positions showIndex := by
  cases showIndex <;> simp [caretView, textLine, markLine, tail]

theorem getElem?_textLine (v : View) (offset : Nat) :
    v.textLine[v.label.length + 2 + offset]? = v.chars[offset]? := by
  rw [textLine, Nat.add_assoc, ← String.length_toList,
    List.getElem?_append_right (Nat.le_add_right _ _), Nat.add_sub_cancel_left,
    List.getElem?_append_right (Nat.le_add_right 2 _)]
  show v.chars[2 + offset - 2]? = _
  rw [Nat.add_sub_cancel_left]

theorem mem_tail {c : Char} (h : c ∈ v.tail positions showIndex) : c = ' ' ∨ c.isDigit := by
  rw [tail] at h
  split at h
  · exact mem_caretIndex h
  · exact absurd h List.not_mem_nil

namespace Shows

theorem exists_offset (h : v.Shows t) (hp : p < t.stripped.length) :
    ∃ offset, v.offsets[p]? = some offset ∧ offset < v.chars.length := by
  have hlt : p < v.offsets.length := h.length_eq ▸ hp
  refine ⟨v.offsets[p], List.getElem?_eq_getElem hlt, ?_⟩
  have hchar := h.char_eq p _ (List.getElem?_eq_getElem hlt)
  rw [List.getElem?_eq_getElem hp] at hchar
  exact (List.getElem?_eq_some_iff.mp hchar).1

theorem column_inj (h : v.Shows t) (hp : v.column p = some n) (hq : v.column q = some n) : p = q := by
  obtain ⟨o, hpo, ho⟩ := column_eq_some_iff.mp hp
  obtain ⟨o', hqo, ho'⟩ := column_eq_some_iff.mp hq
  obtain rfl : o = o' := by omega
  have hlt := (List.getElem?_eq_some_iff.mp hpo).1
  have hnodup : v.offsets.Nodup := h.increasing.imp Nat.ne_of_lt
  exact (List.getElem?_inj hlt hnodup).mp (hpo.trans hqo.symm)

theorem caret_iff (h : v.Shows t) (hp : ∀ p ∈ positions, p < t.stripped.length) (n : Nat) :
    (v.markLine positions showIndex)[n]? = some '^' ↔ ∃ p ∈ positions, v.column p = some n := by
  have hindent : '^' ∉ List.replicate (v.label.length + 2) ' ' := fun hm =>
    absurd (List.eq_of_mem_replicate hm) (by decide)
  have htail : '^' ∉ v.tail positions showIndex := fun hm =>
    absurd (mem_tail hm) (by decide)
  rw [markLine, getElem?_between hindent htail, List.length_replicate]
  simp only [getElem?_caretLine, mem_places, column_eq_some_iff]
  constructor
  · rintro ⟨offset, rfl, -, p, hpos, ho⟩
    exact ⟨p, hpos, offset, ho, rfl⟩
  · rintro ⟨p, hpos, offset, ho, rfl⟩
    obtain ⟨o, ho', hlt⟩ := h.exists_offset (hp p hpos)
    obtain rfl := Option.some.inj (ho.symm.trans ho')
    exact ⟨offset, rfl, hlt, p, hpos, ho⟩

theorem above (h : v.Shows t) (hp : p < t.stripped.length) :
    ∃ n : Nat, v.column p = some n ∧ v.textLine[n]? = t.stripped[p]? := by
  obtain ⟨offset, ho, -⟩ := h.exists_offset hp
  refine ⟨_, column_eq_some_iff.mpr ⟨offset, ho, rfl⟩, ?_⟩
  rw [getElem?_textLine, h.char_eq p offset ho]

theorem index (h : v.Shows t) (hp : ∀ p ∈ positions, p < t.stripped.length) (hne : positions ≠ []) :
    ∃ last : Nat, IsGreatest {o | ∃ p ∈ positions, v.offsets[p]? = some o} last ∧
      ' ' :: last.repr.toList <:+ v.markLine positions true := by
  obtain ⟨p, hpos⟩ := List.exists_mem_of_ne_nil _ hne
  obtain ⟨offset, ho, -⟩ := h.exists_offset (hp p hpos)
  have hplace : offset ∈ v.places positions := mem_places.mpr ⟨p, hpos, ho⟩
  rcases hmax : (v.places positions).max? with _ | last
  · rw [List.max?_eq_none_iff] at hmax
    rw [hmax] at hplace
    cases hplace
  · obtain ⟨hmem, hle⟩ := List.max?_eq_some_iff.mp hmax
    refine ⟨last, ⟨mem_places.mp hmem, fun o ho => hle o (mem_places.mpr ho)⟩, ?_⟩
    have htail : v.tail positions true = ' ' :: last.repr.toList := by
      rw [tail, if_pos rfl, caretIndex, hmax]
      exact String.toList_append
    rw [markLine, htail, ← List.append_assoc]
    exact List.suffix_append _ _

/-- A view of the text is marked as it has to be. -/
theorem marked (h : v.Shows t) (hp : ∀ p ∈ positions, p < t.stripped.length) :
    v.Marked t positions showIndex (v.markLine positions showIndex) := by
  refine ⟨h.caret_iff hp, fun p hpos => h.above (hp p hpos), fun p => ?_, ?_⟩
  · rw [read, List.mem_filter, List.mem_range, beq_iff_eq]
    constructor
    · rintro ⟨-, hread⟩
      obtain ⟨n, hn, hcaret⟩ := Option.bind_eq_some_iff.mp hread
      obtain ⟨q, hq, hqn⟩ := (h.caret_iff hp n).mp hcaret
      exact h.column_inj hqn hn ▸ hq
    · intro hpos
      obtain ⟨n, hn, -⟩ := h.above (hp p hpos)
      exact ⟨h.length_eq ▸ hp p hpos,
        Option.bind_eq_some_iff.mpr ⟨n, hn, (h.caret_iff hp n).mpr ⟨p, hpos, hn⟩⟩⟩
  · rintro rfl hne
    exact h.index hp hne

end Shows

/-! ### The lines of a drawing -/

theorem Shows.newline_not_mem_textLine (h : v.Shows t) : '\n' ∉ v.textLine := by
  rw [textLine, List.mem_append, List.mem_append]
  rintro (hm | hm | hm)
  · exact h.label_line hm
  · exact absurd hm (by decide)
  · exact h.chars_line hm

theorem newline_not_mem_markLine (v : View) (positions : List Nat) (showIndex : Bool) :
    '\n' ∉ v.markLine positions showIndex := by
  rw [markLine, List.mem_append, List.mem_append]
  rintro (hm | hm | hm)
  · exact absurd (List.eq_of_mem_replicate hm) (by decide)
  · exact absurd (mem_caretLine hm) (by decide)
  · exact absurd (mem_tail hm) (by decide)

/-- Two lines for each view, one after the other. -/
theorem intercalate_pairs {α β : Type} (a : α) (f g : β → List α) (xs : List β) :
    [a].intercalate (xs.map fun x => f x ++ a :: g x) =
      [a].intercalate (xs.flatMap fun x => [f x, g x]) := by
  induction xs with
  | nil => rfl
  | cons x xs ih =>
    cases xs with
    | nil => simp [List.intercalate_cons_cons]
    | cons y ys =>
      rw [List.map_cons] at ih
      rw [List.map_cons, List.map_cons, List.intercalate_cons_cons, ih]
      simp [List.intercalate_cons_cons]

theorem splitOn_views {vs : List View} (hne : vs ≠ []) (hvs : ∀ v ∈ vs, v.Shows t)
    (positions : List Nat) (showIndex : Bool) :
    ("\n".intercalate (vs.map fun v =>
        caretView v.label v.chars (v.places positions) showIndex)).toList.splitOn '\n' =
      vs.flatMap fun v => [v.textLine, v.markLine positions showIndex] := by
  rw [String.toList_intercalate, List.map_map]
  simp only [Function.comp_def, toList_caretView]
  refine (congrArg _ (intercalate_pairs '\n' _ _ vs)).trans (List.splitOn_intercalate _ ?_ ?_)
  · intro line hline
    obtain ⟨v, hv, hline⟩ := List.mem_flatMap.mp hline
    rcases List.mem_pair.mp hline with rfl | rfl
    · exact (hvs v hv).newline_not_mem_textLine
    · exact v.newline_not_mem_markLine positions showIndex
  · obtain ⟨v, vs, rfl⟩ := List.exists_cons_of_ne_nil hne
    exact List.cons_ne_nil _ _

end View

/-! ### Drawings -/

namespace Text

variable {raw : String} {t : Text} {mode : CaretMode} {showIndex : Bool} {positions : List Nat}

theorem Faithful.newline_not_mem_line (h : t.Faithful raw) : '\n' ∉ t.line := by
  rw [h.line_eq, List.mem_filter]
  exact fun hm => absurd hm.2 (by decide)

theorem Faithful.lineView_shows (h : t.Faithful raw) : t.lineView.Shows t :=
  ⟨h.length_eq, h.increasing, h.char_eq, (by decide : '\n' ∉ "original".toList), h.newline_not_mem_line⟩

theorem Faithful.strippedView_shows (h : t.Faithful raw) : t.strippedView.Shows t := by
  refine ⟨List.length_range.trans h.length_eq, List.pairwise_lt_range, fun p offset ho => ?_,
    (by decide : '\n' ∉ "stripped".toList), fun hm => absurd (h.visible _ hm).2.2 (by decide)⟩
  obtain ⟨hlt, heq⟩ := List.getElem?_eq_some_iff.mp ho
  rw [← heq]
  exact congrArg (t.stripped[·]?) (List.getElem_range hlt)

theorem Faithful.shows_of_mem_shown (h : t.Faithful raw) : ∀ v ∈ t.shown mode, v.Shows t := by
  intro v hv
  have hor : v = t.lineView ∨ v = t.strippedView := by
    unfold shown at hv
    split at hv
    · exact .inr (List.mem_singleton.mp hv)
    · cases mode with
      | line => exact .inl (List.mem_singleton.mp hv)
      | stripped => exact .inr (List.mem_singleton.mp hv)
      | both => exact List.mem_pair.mp hv
  rcases hor with rfl | rfl
  · exact h.lineView_shows
  · exact h.strippedView_shows

theorem shown_ne_nil (t : Text) (mode : CaretMode) : t.shown mode ≠ [] := by
  unfold shown
  split
  · exact List.cons_ne_nil _ _
  · cases mode <;> exact List.cons_ne_nil _ _

theorem places_strippedView (hp : ∀ p ∈ positions, p < t.length) :
    t.strippedView.places positions = positions := by
  have hsome : ∀ p ∈ positions, (List.range t.length)[p]? = some p :=
    fun p hpos => List.getElem?_range (hp p hpos)
  exact (List.filterMap_congr hsome).trans List.filterMap_some

theorem views_eq (hp : ∀ p ∈ positions, p < t.length) (mode : CaretMode) (showIndex : Bool) :
    t.views mode showIndex positions = (t.shown mode).map fun v =>
      caretView v.label v.chars (v.places positions) showIndex := by
  have lower : caretView "stripped" t.stripped positions showIndex =
      caretView "stripped" t.stripped (t.strippedView.places positions) showIndex := by
    rw [places_strippedView hp]
  rw [views, lower]
  unfold shown
  by_cases hline : t.line = t.stripped
  · rw [if_pos hline, if_pos hline]
    rfl
  · rw [if_neg hline, if_neg hline]
    cases mode <;> rfl

theorem draw_inside (hp : ∀ p ∈ positions, p < t.length) (mode : CaretMode) (showIndex : Bool) :
    t.draw mode showIndex positions =
      .ok ("\n".intercalate (t.views mode showIndex positions)) := by
  have inside : positions.filter (t.length ≤ ·) = [] :=
    List.filter_eq_nil_iff.mpr fun p hpos => by simpa using hp p hpos
  rw [draw, inside]
  rfl

theorem draw_eq_error_iff {fault : ParseFault} : t.draw mode showIndex positions = .error fault ↔
    ∃ p, IsLeast {p | p ∈ positions ∧ t.length ≤ p} p ∧
      fault = .caretOutOfRange p t.length := by
  have least (p : Nat) : (positions.filter (t.length ≤ ·)).min? = some p ↔
      IsLeast {p | p ∈ positions ∧ t.length ≤ p} p := by
    rw [List.min?_eq_some_iff]
    simp only [IsLeast, lowerBounds, List.mem_filter, decide_eq_true_eq, Set.mem_ofPred_eq]
  rw [draw]
  rcases hmin : (positions.filter (t.length ≤ ·)).min? with _ | p
  · constructor
    · exact nofun
    · rintro ⟨p, hp, -⟩
      cases ((least p).mpr hp).symm.trans hmin
  · have hp := (least p).mp hmin
    constructor
    · intro h
      exact ⟨p, hp, (Except.error.inj h).symm⟩
    · rintro ⟨q, hq, rfl⟩
      rw [hp.unique hq]

theorem exists_draw_eq_error_iff :
    (∃ fault, t.draw mode showIndex positions = .error fault) ↔ ∃ p ∈ positions, t.length ≤ p := by
  constructor
  · rintro ⟨fault, hfault⟩
    obtain ⟨p, hp, -⟩ := draw_eq_error_iff.mp hfault
    exact ⟨p, hp.1⟩
  · rintro ⟨p, hp, hle⟩
    have outside : {p | p ∈ positions ∧ t.length ≤ p}.Nonempty := ⟨p, hp, hle⟩
    exact ⟨_, draw_eq_error_iff.mpr ⟨_, isLeast_csInf outside, rfl⟩⟩

/-- A drawing fails if there are positions outside of the text, and names the least of them. Any other
one has two lines for each view that is shown, and its marks can be read back. -/
theorem draw_readable (h : ofRaw raw = .ok t) (mode : CaretMode) (showIndex : Bool)
    (positions : List Nat) :
    ((∃ fault, t.draw mode showIndex positions = .error fault) ↔
        ∃ p ∈ positions, t.length ≤ p) ∧
      (∀ fault, t.draw mode showIndex positions = .error fault →
        ∃ p, IsLeast {p | p ∈ positions ∧ t.length ≤ p} p ∧
          fault = .caretOutOfRange p t.length) ∧
      ((∀ p ∈ positions, p < t.length) → ∃ (drawing : String) (marks : View → List Char),
        t.draw mode showIndex positions = .ok drawing ∧
          drawing.toList.splitOn '\n' = (t.shown mode).flatMap (fun v => [v.textLine, marks v]) ∧
          ∀ v ∈ t.shown mode, v.Marked t positions showIndex (marks v)) := by
  refine ⟨exists_draw_eq_error_iff, fun fault hfault => draw_eq_error_iff.mp hfault, fun hp => ?_⟩
  have hshows : ∀ v ∈ t.shown mode, v.Shows t := (faithful_of_ofRaw h).shows_of_mem_shown
  have hlt : ∀ p ∈ positions, p < t.stripped.length :=
    fun p hpos => length_ofRaw h ▸ hp p hpos
  refine ⟨_, fun v => v.markLine positions showIndex, draw_inside hp mode showIndex, ?_,
    fun v hv => (hshows v hv).marked hlt⟩
  rw [views_eq hp]
  exact View.splitOn_views (t.shown_ne_nil mode) hshows positions showIndex

/-- A tab before the text, which has more room in one view than in the other. -/
theorem draw_readable_tab :
    let t : Text := ⟨['\t', '1', ' ', '+', ' ', '(', '2'], ['1', '+', '(', '2'], [1, 3, 5, 6]⟩
    ofRaw "\t1 + (2" = .ok t ∧
      (∃ fault, t.draw .line true [9, 0, 4] = .error fault ∧
        ∃ p, IsLeast {p | p ∈ [9, 0, 4] ∧ t.length ≤ p} p ∧ fault = .caretOutOfRange p t.length) ∧
      (∀ p ∈ [2, 0], p < t.length) ∧ ∃ (drawing : String) (marks : View → List Char),
        t.draw .both true [2, 0] = .ok drawing ∧
          drawing.toList.splitOn '\n' = [t.lineView.textLine, marks t.lineView,
            t.strippedView.textLine, marks t.strippedView] ∧
          t.lineView.Marked t [2, 0] true (marks t.lineView) ∧
          t.strippedView.Marked t [2, 0] true (marks t.strippedView) := by
  intro t
  have ht : ofRaw "\t1 + (2" = .ok t := rfl
  have inside : ∀ p ∈ [2, 0], p < t.length := by decide
  obtain ⟨fails, least, -⟩ := draw_readable ht .line true [9, 0, 4]
  obtain ⟨fault, hfault⟩ := fails.mpr ⟨9, by decide, by decide⟩
  obtain ⟨drawing, marks, hdraw, hsplit, hmarks⟩ := (draw_readable ht .both true [2, 0]).2.2 inside
  have hshown : t.shown .both = [t.lineView, t.strippedView] := rfl
  rw [hshown] at hsplit hmarks
  exact ⟨ht, ⟨fault, hfault, least fault hfault⟩, inside, drawing, marks, hdraw, hsplit,
    hmarks _ (List.mem_cons_self ..), hmarks _ (List.mem_cons_of_mem _ (List.mem_singleton_self _))⟩

example : (⟨['1', ' ', '+', ' ', '(', '2'], ['1', '+', '(', '2'], [0, 2, 4, 5]⟩ : Text).draw .both true
    [2] = .ok "original: 1 + (2\n              ^ 4\nstripped: 1+(2\n            ^ 2" := by
  cbv

end Text

end Reckon
