import Mathlib
import Reckon.Proofs.Groups

/-!
# Where content stands in the text

A position in the content of an expression is that of an item, and the items before it are spelled
by the text before it (`Item.SpelledAll.split`). So an offset in the content is mapped to where the
text of the rest of the items starts (`Expression.Spelled.split`): inside of the text of the
expression unless the content is over, at the first letter of a name, and at the opening bracket for
a placeholder.

So positions are exact (`Expression.Spelled.located`): a character is where it stands, the j-th
placeholder where the j-th group starts, later offsets have later positions, and those beyond the
content the position behind the expression.
-/

namespace Reckon

/-- `position` tells where the characters of some content stand in `text`, up to `stop`. The
placeholders in it stand for something that starts at the positions `starts`. -/
structure Located (text content : List Char) (starts : List Nat) (stop : Nat) (position : Nat → Nat) :
    Prop where
  char : ∀ i c, content[i]? = some c → c ≠ placeholder → text[position i]? = some c
  group : ∀ i, content[i]? = some placeholder →
    starts[(content.take i).count placeholder]? = some (position i)
  increasing : StrictMonoOn position (Set.Iic content.length)
  beyond : ∀ i, content.length ≤ i → position i = stop

/-! ### Items -/

theorem Group.Spelled.start_eq {d pos : Nat} {g : Group} {w : List Char} (h : g.Spelled d pos w) :
    g.start = pos := by
  cases h
  rfl

theorem Group.Spelled.behind_eq {d pos : Nat} {g : Group} {w : List Char} (h : g.Spelled d pos w) :
    Item.behind pos (.group g) = pos + w.length := by
  cases h with
  | mk h =>
    simp only [Item.behind, Group.stop, List.length_cons, List.length_append, List.length_nil]
    omega

namespace Item

variable {d pos : Nat} {items is js : List Item} {w : List Char}

/-- The text of some items is that of the first ones and then that of the others, which starts
behind the last of the first ones. -/
theorem SpelledAll.split (h : SpelledAll d pos (is ++ js) w) : ∃ u v, w = u ++ v ∧
    is.foldl behind pos = pos + u.length ∧ SpelledAll d (pos + u.length) js v := by
  induction is generalizing pos w with
  | nil => exact ⟨[], w, rfl, rfl, h⟩
  | cons i is ih =>
    cases h with
    | @char _ _ c _ w _ hs =>
      obtain ⟨u, v, rfl, hpos, hjs⟩ := ih hs
      refine ⟨c :: u, v, rfl, ?_, ?_⟩
      · rw [List.foldl_cons, behind, hpos, List.length_cons, Nat.add_right_comm, Nat.add_assoc]
      · rwa [List.length_cons, Nat.add_comm u.length, ← Nat.add_assoc]
    | @group _ _ g _ x w hg hs =>
      obtain ⟨u, v, rfl, hpos, hjs⟩ := ih hs
      refine ⟨x ++ u, v, (List.append_assoc ..).symm, ?_, ?_⟩
      · rw [List.foldl_cons, hg.behind_eq, hpos, List.length_append, Nat.add_assoc]
      · rwa [List.length_append, ← Nat.add_assoc]

theorem SpelledAll.ne_nil (h : SpelledAll d pos items w) (hne : items ≠ []) : w ≠ [] := by
  cases h with
  | nil => exact absurd rfl hne
  | char => exact List.cons_ne_nil _ _
  | group hg =>
    cases hg
    exact List.cons_ne_nil _ _

/-- Characters of the content that are no placeholders stand in the text as they are. -/
theorem SpelledAll.split_plain {name rest : List Char} (h : SpelledAll d pos items w)
    (hm : items.map mark = name ++ rest) (hn : placeholder ∉ name) :
    ∃ js v, w = name ++ v ∧ js.map mark = rest ∧ SpelledAll d (pos + name.length) js v := by
  induction name generalizing pos items w with
  | nil => exact ⟨items, w, rfl, hm, h⟩
  | cons c name ih =>
    obtain ⟨hc, hn⟩ := not_or.mp (mt List.mem_cons.mpr hn)
    cases h with
    | nil => cases hm
    | char _ hs =>
      obtain ⟨hmark, hm⟩ := List.cons.inj hm
      obtain ⟨js, v, rfl, hjs, hv⟩ := ih hs hm hn
      refine ⟨js, v, congrArg (· :: (name ++ v)) hmark, hjs, ?_⟩
      rwa [List.length_cons, Nat.add_comm name.length, ← Nat.add_assoc]
    | group => exact absurd (List.cons.inj hm).1 hc

/-- For a placeholder behind such characters there is an opening bracket. -/
theorem SpelledAll.opening_prefix {name rest : List Char} (h : SpelledAll d pos items w)
    (hm : items.map mark = name ++ placeholder :: rest) (hn : placeholder ∉ name) :
    ∃ b : Bracket, name ++ [b.opening] <+: w := by
  obtain ⟨js, v, rfl, hjs, hv⟩ := h.split_plain hm hn
  cases hv with
  | nil => cases hjs
  | char hc => exact absurd (List.cons.inj hjs).1 (isPlain_iff.mp hc).2.2.2
  | group hg =>
    cases hg with
    | @mk _ _ b =>
      exact ⟨b, (List.prefix_append_right_inj name).mpr
        (List.cons_prefix_cons.mpr ⟨rfl, List.nil_prefix⟩)⟩

/-- The placeholders of some items are as many as their groups. -/
theorem count_placeholder_mark (h : ∀ c, char c ∈ items → isPlain c) :
    (items.map mark).count placeholder = (items.filterMap group?).length := by
  induction items with
  | nil => rfl
  | cons i items ih =>
    have ih := ih fun c hc => h c (List.mem_cons_of_mem _ hc)
    cases i with
    | char c =>
      have hc : c ≠ placeholder := (isPlain_iff.mp (h c List.mem_cons_self)).2.2.2
      rw [List.map_cons, mark, List.count_cons_of_ne hc, ih]
      rfl
    | group g =>
      rw [List.map_cons, mark, List.count_cons_self, ih]
      rfl

end Item

/-! ### Expressions -/

namespace Expression

variable {d pos n : Nat} {e : Expression} {w : List Char}

theorem Spelled.start_eq (h : e.Spelled d pos w) : e.start = pos := by
  cases h
  rfl

theorem Spelled.ne_nil (h : e.Spelled d pos w) : w ≠ [] := by
  cases h with
  | mk hne h => exact h.ne_nil hne

/-- From the position of an offset on the text is that of the items from the offset on. -/
theorem Spelled.split (h : e.Spelled d pos w) (n : Nat) : ∃ u v, w = u ++ v ∧
    e.realPosition n = pos + u.length ∧ Item.SpelledAll d (pos + u.length) (e.items.drop n) v := by
  cases h with
  | @mk _ _ items _ _ h =>
    rw [← List.take_append_drop n items] at h
    exact h.split

/-- At an offset in the content there is an item, and its text is where the offset is mapped to. -/
theorem Spelled.item_at (h : e.Spelled d pos w) {i : Item} (hi : e.items[n]? = some i) :
    ∃ u v, w = u ++ v ∧ e.realPosition n = pos + u.length ∧
      Item.SpelledAll d (pos + u.length) (i :: e.items.drop (n + 1)) v := by
  obtain ⟨hn, rfl⟩ := List.getElem?_eq_some_iff.mp hi
  rw [← List.drop_eq_getElem_cons hn]
  exact h.split n

theorem realPosition_succ {i : Item} (hi : e.items[n]? = some i) :
    e.realPosition (n + 1) = i.behind (e.realPosition n) := by
  rw [realPosition, realPosition, List.take_add_one, hi, List.foldl_append]
  rfl

theorem exists_item (hn : n < e.content.length) : ∃ i, e.items[n]? = some i := by
  rw [content, List.length_map] at hn
  exact ⟨_, List.getElem?_eq_getElem hn⟩

theorem Spelled.realPosition_lt_succ (h : e.Spelled d pos w) (hn : n < e.content.length) :
    e.realPosition n < e.realPosition (n + 1) := by
  obtain ⟨i, hi⟩ := exists_item hn
  obtain ⟨u, v, -, hpos, hv⟩ := h.item_at hi
  rw [realPosition_succ hi, hpos]
  cases hv with
  | char => exact Nat.lt_succ_self _
  | group hg =>
    rw [hg.behind_eq]
    cases hg
    simp

theorem Spelled.realPosition_of_le (h : e.Spelled d pos w) (hn : e.content.length ≤ n) :
    e.realPosition n = e.stop := by
  obtain ⟨u, v, rfl, hpos, hv⟩ := h.split n
  rw [content, List.length_map] at hn
  rw [List.drop_eq_nil_of_le hn] at hv
  cases hv
  cases h
  rw [hpos, List.append_nil]
  rfl

theorem Spelled.char_at (h : e.Spelled d pos w) {c : Char} (hc : e.content[n]? = some c)
    (hp : c ≠ placeholder) : ∃ u v, w = u ++ c :: v ∧ e.realPosition n = pos + u.length := by
  rw [content, List.getElem?_map] at hc
  obtain ⟨i, hi, rfl⟩ := Option.map_eq_some_iff.mp hc
  obtain ⟨u, v, rfl, hpos, hv⟩ := h.item_at hi
  cases hv with
  | char => exact ⟨u, _, rfl, hpos⟩
  | group => exact absurd rfl hp

theorem Spelled.group_at (h : e.Spelled d pos w) (hp : e.content[n]? = some placeholder) :
    ∃ g, e.groups[(e.content.take n).count placeholder]? = some g ∧ e.realPosition n = g.start := by
  have marked (c : Char) (hc : Item.char c ∈ e.items.take n) : isPlain c :=
    h.marked c (List.mem_of_mem_take hc)
  rw [content, List.getElem?_map] at hp
  obtain ⟨i, hi, hmark⟩ := Option.map_eq_some_iff.mp hp
  obtain ⟨u, v, -, hpos, hv⟩ := h.item_at hi
  cases hv with
  | char hc => exact absurd hmark (isPlain_iff.mp hc).2.2.2
  | @group _ _ g _ _ _ hg =>
    refine ⟨g, ?_, hpos.trans hg.start_eq.symm⟩
    -- the groups before are those of the items before
    obtain ⟨hn, hget⟩ := List.getElem?_eq_some_iff.mp hi
    have items : e.items = e.items.take n ++ .group g :: e.items.drop (n + 1) := by
      rw [← hget, ← List.drop_eq_getElem_cons hn, List.take_append_drop]
    have groups : e.groups = (e.items.take n).filterMap Item.group? ++
        g :: (e.items.drop (n + 1)).filterMap Item.group? := by
      conv_lhs => rw [Expression.groups, items, List.filterMap_append]
      rfl
    rw [content, ← List.map_take, Item.count_placeholder_mark marked, groups]
    simp

/-- An expression is located in a text in which it stands. -/
theorem Spelled.located {u v : List Char} (h : e.Spelled d u.length w) :
    Located (u ++ (w ++ v)) e.content (e.groups.map Group.start) e.stop e.realPosition := by
  refine ⟨fun i c hc hp => ?_, fun i hp => ?_, ?_, fun i hi => h.realPosition_of_le hi⟩
  · obtain ⟨x, y, rfl, hpos⟩ := h.char_at hc hp
    rw [hpos]
    simp
  · obtain ⟨g, hg, hpos⟩ := h.group_at hp
    rw [List.getElem?_map, hg, hpos]
    rfl
  · refine strictMonoOn_of_lt_succ Set.ordConnected_Iic fun i _ _ hi => ?_
    exact h.realPosition_lt_succ (Nat.lt_of_succ_le hi)

/-- The position of a character of the content is one of the text of the expression. -/
theorem Spelled.realPosition_lt (h : e.Spelled d pos w) (hn : n < e.content.length) :
    e.realPosition n < pos + w.length := by
  obtain ⟨u, v, rfl, hpos, hv⟩ := h.split n
  have rest : e.items.drop n ≠ [] := by
    rw [Ne, List.drop_eq_nil_iff, Nat.not_le]
    rwa [content, List.length_map] at hn
  rw [hpos, List.length_append]
  have := List.length_pos_iff.mpr (hv.ne_nil rest)
  omega

/-- From the position of an offset on the text is that of the content from the offset on. -/
theorem Spelled.content_at {u cs : List Char} (h : e.Spelled d pos w) (hc : e.content = u ++ cs) :
    ∃ v x js, w = v ++ x ∧ e.realPosition u.length = pos + v.length ∧ js.map Item.mark = cs ∧
      Item.SpelledAll d (pos + v.length) js x := by
  obtain ⟨v, x, rfl, hpos, hx⟩ := h.split u.length
  refine ⟨v, x, _, rfl, hpos, ?_, hx⟩
  have := congrArg (List.drop u.length) hc
  rwa [List.drop_left, content, ← List.map_drop] at this

/-- Characters of the content that are no placeholders stand in the text. -/
theorem Spelled.plain_prefix {u name rest : List Char} (h : e.Spelled d pos w)
    (hc : e.content = u ++ (name ++ rest)) (hn : placeholder ∉ name) :
    ∃ n, e.realPosition u.length = pos + n ∧ name <+: w.drop n := by
  obtain ⟨v, x, js, rfl, hpos, hm, hx⟩ := h.content_at hc
  obtain ⟨_, y, rfl, -, -⟩ := hx.split_plain hm hn
  exact ⟨v.length, hpos, by rw [List.drop_left]; exact List.prefix_append name y⟩

/-- A name with a placeholder behind it stands in the text with an opening bracket behind it. -/
theorem Spelled.call_prefix {u name rest : List Char} (h : e.Spelled d pos w)
    (hc : e.content = u ++ (name ++ placeholder :: rest)) (hn : placeholder ∉ name) :
    ∃ (n : Nat) (b : Bracket), e.realPosition u.length = pos + n ∧
      name ++ [b.opening] <+: w.drop n := by
  obtain ⟨v, x, js, rfl, hpos, hm, hx⟩ := h.content_at hc
  obtain ⟨b, hb⟩ := hx.opening_prefix hm hn
  exact ⟨v.length, b, hpos, by rwa [List.drop_left]⟩

end Expression

end Reckon
