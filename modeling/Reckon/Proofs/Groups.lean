import Mathlib
import Reckon.Proofs.Operand
import Reckon.Proofs.Spelling

/-!
# Which operand a group belongs to

In the content of a tree every placeholder stands for a group (`Expression.Marked`), and of an
operand only its placeholders do. So the groups of the steps of some content, step after step, are
those of its characters, in order (`Content.groups_eq`), and each step has as many as it asks for
(`Step.Counted`).
-/

namespace Reckon

/-! ### Trees from a text -/

/-- Is every placeholder in the content that of a group? -/
def Expression.Marked (e : Expression) : Prop := ∀ c, Item.char c ∈ e.items → isPlain c

theorem Item.SpelledAll.isPlain_of_mem {d pos : Nat} {items : List Item} {w : List Char}
    (h : Item.SpelledAll d pos items w) {c : Char} (hc : Item.char c ∈ items) : isPlain c := by
  induction items generalizing pos w with
  | nil => cases hc
  | cons i items ih =>
    cases h with
    | char h hs =>
      rcases List.mem_cons.mp hc with hc | hc
      · exact Item.char.inj hc ▸ h
      · exact ih hs hc
    | group h hs =>
      rcases List.mem_cons.mp hc with hc | hc
      · cases hc
      · exact ih hs hc

theorem Item.SpelledAll.group_of_mem {d pos : Nat} {items : List Item} {w : List Char}
    (h : Item.SpelledAll d pos items w) {g : Group} (hg : Item.group g ∈ items) :
    ∃ u x v, w = u ++ (x ++ v) ∧ Group.Spelled d (pos + u.length) g x := by
  induction items generalizing pos w with
  | nil => cases hg
  | cons i items ih =>
    cases h with
    | @char _ _ c _ _ _ hs =>
      rcases List.mem_cons.mp hg with hg | hg
      · cases hg
      · obtain ⟨u, x, v, rfl, h⟩ := ih hs hg
        refine ⟨c :: u, x, v, rfl, ?_⟩
        rwa [List.length_cons, Nat.add_comm u.length, ← Nat.add_assoc]
    | @group _ _ _ _ u w h hs =>
      rcases List.mem_cons.mp hg with hg | hg
      · exact ⟨[], u, w, rfl, Item.group.inj hg ▸ h⟩
      · obtain ⟨u', x, v, rfl, h⟩ := ih hs hg
        refine ⟨u ++ u', x, v, (List.append_assoc ..).symm, ?_⟩
        rwa [List.length_append, ← Nat.add_assoc]

theorem Expression.SpelledAll.of_mem {d pos : Nat} {es : List Expression} {w : List Char}
    (h : Expression.SpelledAll d pos es w) {e : Expression} (he : e ∈ es) :
    ∃ u x v, w = u ++ (x ++ v) ∧ Expression.Spelled d (pos + u.length) e x := by
  induction es generalizing pos w with
  | nil => cases he
  | cons e' es ih =>
    cases h with
    | last h => exact List.mem_singleton.mp he ▸ ⟨[], w, [], (List.append_nil w).symm, h⟩
    | @more _ _ _ _ u v h hs =>
      rcases List.mem_cons.mp he with rfl | he
      · exact ⟨[], u, separator :: v, rfl, h⟩
      · obtain ⟨u', x, v', rfl, h⟩ := ih hs he
        refine ⟨u ++ separator :: u', x, v', by simp, ?_⟩
        rwa [length_comma]

theorem mem_filterMap_group {items : List Item} {g : Group} :
    g ∈ items.filterMap Item.group? ↔ Item.group g ∈ items := by
  rw [List.mem_filterMap]
  constructor
  · rintro ⟨i, hi, h⟩
    cases i with
    | char c => cases h
    | group g' => exact Option.some.inj h ▸ hi
  · exact fun h => ⟨_, h, rfl⟩

namespace Expression

theorem Spelled.marked {d pos : Nat} {e : Expression} {w : List Char} (h : e.Spelled d pos w) :
    e.Marked := by
  cases h with
  | mk _ h => exact fun c hc => h.isPlain_of_mem hc

/-- A group of an expression that is spelled is spelled where it starts. -/
theorem Spelled.group_of_mem {d pos : Nat} {e : Expression} {w : List Char} (h : e.Spelled d pos w)
    {g : Group} (hg : g ∈ e.groups) :
    ∃ u x v, w = u ++ (x ++ v) ∧ Group.Spelled d (pos + u.length) g x := by
  cases h with
  | mk _ h => exact h.group_of_mem (mem_filterMap_group.mp hg)

/-- An expression inside of one that is spelled is spelled by a part of its text. -/
theorem Inside.spelled_part {root e : Expression} (h : root.Inside e) {d pos : Nat} {w : List Char}
    (hr : root.Spelled d pos w) :
    ∃ d' u x v, w = u ++ (x ++ v) ∧ Expression.Spelled d' (pos + u.length) e x := by
  induction h with
  | root => exact ⟨d, [], w, [], (List.append_nil w).symm, hr⟩
  | @child e c g _ hg hc ih =>
    obtain ⟨d', u, x, v, rfl, he⟩ := ih
    obtain ⟨u', x', v', rfl, hgroup⟩ := he.group_of_mem hg
    cases hgroup with
    | @mk d' _ b children y h =>
      obtain ⟨u'', x'', v'', rfl, hchild⟩ := h.of_mem hc
      refine ⟨d', u ++ (u' ++ b.opening :: u''), x'', v'' ++ b.closing :: (v' ++ v), by simp, ?_⟩
      have : pos + (u ++ (u' ++ b.opening :: u'')).length =
          pos + u.length + u'.length + 1 + u''.length := by
        simp only [List.length_append, List.length_cons]
        omega
      rwa [this]

theorem Inside.spelled {root e : Expression} (h : root.Inside e)
    (hr : ∃ d pos w, Expression.Spelled d pos root w) :
    ∃ d pos w, Expression.Spelled d pos e w := by
  obtain ⟨d, pos, w, hr⟩ := hr
  obtain ⟨_, _, _, _, _, he⟩ := h.spelled_part hr
  exact ⟨_, _, _, he⟩

theorem Inside.trans {e e' e'' : Expression} (h : e.Inside e') (h' : e'.Inside e'') :
    e.Inside e'' := by
  induction h' with
  | root => exact h
  | child _ hg hc ih => exact ih.child hg hc

theorem Marked.brace_not_mem {e : Expression} (h : e.Marked) : '\x7b' ∉ e.content := by
  intro hm
  obtain ⟨i, hi, hc⟩ := List.mem_map.mp hm
  cases i with
  | char c =>
    have := (isPlain_iff.mp (h c hi)).1
    rw [show c = '\x7b' from hc] at this
    exact absurd this (by decide)
  | group g => exact absurd hc (show placeholder ≠ '\x7b' by decide)

end Expression

/-! ### The groups of a step -/

section
variable {e : Expression} {items is js : List Item} {u w : List Char} {x : Operand} {g : Bool}
  {o : Option Operator} {n : Nat} {s : Step} {steps : List Step}

/-- Are there as many groups as the operand asks for? -/
def Step.Counted (s : Step) (e : Expression) : Prop :=
  match s.operand with
  | .placeholder => ∃ g, s.groups e = [g]
  | .call _ n => (s.groups e).length = n
  | .var _ => True
  | .number _ parts => ∃ p, parts = some p

theorem filterMap_group_eq_nil (h : placeholder ∉ is.map Item.mark) :
    is.filterMap Item.group? = [] := by
  refine List.filterMap_eq_nil_iff.mpr fun i hi => ?_
  cases i with
  | char c => rfl
  | group g => exact absurd (List.mem_map.mpr ⟨_, hi, rfl⟩) h

theorem length_filterMap_group (hm : ∀ c, Item.char c ∈ is → isPlain c)
    (h : is.map Item.mark = List.replicate n placeholder) :
    (is.filterMap Item.group?).length = n := by
  have all (i : Item) (hi : i ∈ is) : (Item.group? i).isSome := by
    cases i with
    | char c =>
      have : c = placeholder :=
        List.eq_of_mem_replicate (h ▸ List.mem_map.mpr ⟨_, hi, rfl⟩ : c ∈ List.replicate n placeholder)
      exact absurd this (isPlain_iff.mp (hm c hi)).2.2.2
    | group g => rfl
  rw [List.length_filterMap_eq_countP, List.countP_eq_length.mpr all]
  simpa using congrArg List.length h

theorem symbol_ne_placeholder (o : Operator) : o.symbol ≠ placeholder := by cases o <;> decide

theorem Operand.Spelled.groups_eq (h : x.Spelled u) (he : e.Marked)
    (hs : e.items.drop n = is ++ js) (hu : is.map Item.mark = u) :
    Step.groups ⟨o, g, x, n⟩ e = is.filterMap Item.group? ∧ Step.Counted ⟨o, g, x, n⟩ e := by
  have hm (c : Char) (hc : Item.char c ∈ is) : isPlain c :=
    he c (List.mem_of_mem_drop (hs ▸ List.mem_append_left _ hc))
  cases h with
  | group =>
    have hg : Step.groups ⟨o, g, .placeholder, n⟩ e = is.filterMap Item.group? := by
      obtain ⟨i, rfl, _⟩ := List.map_eq_singleton_iff.mp hu
      simp only [Step.groups, hs]
      rfl
    have one : (is.filterMap Item.group?).length = 1 := length_filterMap_group hm hu
    obtain ⟨g, hone⟩ := List.length_eq_one_iff.mp one
    exact ⟨hg, g, hg.trans hone⟩
  | @call name k h =>
    obtain ⟨is, ks, rfl, hn, hk⟩ := List.map_eq_append_iff.mp hu
    have letters : is.filterMap Item.group? = [] := by
      refine filterMap_group_eq_nil fun hp => ?_
      exact absurd (h.isNamePart _ (hn ▸ hp)) (by decide)
    have len : is.length = name.length := by rw [← hn, List.length_map]
    have len' : ks.length = k + 1 := by simpa using congrArg List.length hk
    have hg : Step.groups ⟨o, g, .call name (k + 1), n⟩ e =
        (is ++ ks).filterMap Item.group? := by
      simp only [Step.groups]
      rw [← List.drop_drop, hs, ← len, ← len', List.append_assoc, List.drop_left, List.take_left,
        List.filterMap_append, letters, List.nil_append]
    refine ⟨hg, ?_⟩
    rw [Step.Counted, hg, List.filterMap_append, letters, List.nil_append]
    exact length_filterMap_group (fun c hc => hm c (List.mem_append_right _ hc)) hk
  | var h =>
    refine ⟨(filterMap_group_eq_nil fun hp => ?_).symm, trivial⟩
    exact absurd (h.isNamePart _ (hu ▸ hp)) (by decide)
  | number h =>
    refine ⟨(filterMap_group_eq_nil fun hp => ?_).symm, _, rfl⟩
    rcases h.mem_literal (hu ▸ hp) with hp | hp <;> exact absurd hp (by decide)

theorem Unary.groups_eq (h : Unary g x u) (he : e.Marked) (hs : e.items.drop n = is ++ js)
    (hu : is.map Item.mark = u) :
    Step.groups ⟨o, g, x, n + g.toNat⟩ e = is.filterMap Item.group? ∧
      Step.Counted ⟨o, g, x, n + g.toNat⟩ e := by
  cases h with
  | plain h _ => exact h.groups_eq he hs hu
  | negated h =>
    obtain ⟨i, is, rfl, hi, hu⟩ := List.map_eq_cons_iff.mp hu
    have hdrop : e.items.drop (n + 1) = is ++ js := by
      rw [← List.drop_drop, hs]
      rfl
    have hg : i.group? = none := by
      cases i with
      | char c => rfl
      | group g => exact absurd hi (show placeholder ≠ minusSign by decide)
    rw [List.filterMap_cons_none hg]
    exact h.groups_eq he hdrop hu

theorem Pairs.groups_eq (h : Pairs n steps w) (he : e.Marked) (hs : e.items.drop n = is ++ js)
    (hw : is.map Item.mark = w) :
    steps.flatMap (Step.groups · e) = is.filterMap Item.group? ∧ ∀ s ∈ steps, s.Counted e := by
  induction h generalizing is with
  | nil =>
    obtain rfl := List.map_eq_nil_iff.mp hw
    exact ⟨rfl, nofun⟩
  | @cons n o g x steps u w hu _ ih =>
    obtain ⟨i, is, rfl, hi, hw⟩ := List.map_eq_cons_iff.mp hw
    obtain ⟨is, ks, rfl, hiu, hkw⟩ := List.map_eq_append_iff.mp hw
    have hg : i.group? = none := by
      cases i with
      | char c => rfl
      | group g => exact absurd hi.symm (symbol_ne_placeholder o)
    have hdrop : e.items.drop (n + 1) = is ++ (ks ++ js) := by
      rw [← List.drop_drop, hs, List.cons_append, List.append_assoc]
      rfl
    have hlater : e.items.drop (n + 1 + u.length) = ks ++ js := by
      rw [← List.drop_drop, hdrop, ← hiu, List.length_map, List.drop_left]
    obtain ⟨hgroups, hcount⟩ := hu.groups_eq (o := some o) he hdrop hiu
    obtain ⟨hgroups', hcount'⟩ := ih hlater hkw
    constructor
    · rw [List.flatMap_cons, hgroups, hgroups', List.filterMap_cons_none hg, List.filterMap_append]
    · intro s hs
      rcases List.mem_cons.mp hs with rfl | hs
      exacts [hcount, hcount' s hs]

/-- The groups of the steps are those of the characters. -/
theorem Content.groups_eq (h : Content steps w) (he : e.Marked) (hs : e.items = is ++ js)
    (hw : is.map Item.mark = w) :
    steps.flatMap (Step.groups · e) = is.filterMap Item.group? ∧ ∀ s ∈ steps, s.Counted e := by
  cases h with
  | @mk g x steps u w hu h =>
    obtain ⟨is, ks, rfl, hiu, hkw⟩ := List.map_eq_append_iff.mp hw
    have hdrop : e.items.drop 0 = is ++ (ks ++ js) := hs.trans (List.append_assoc ..)
    have hlater : e.items.drop u.length = ks ++ js := by
      rw [hs, ← hiu, List.length_map, List.append_assoc, List.drop_left]
    obtain ⟨hgroups, hcount⟩ := hu.groups_eq (o := none) he hdrop hiu
    obtain ⟨hgroups', hcount'⟩ := h.groups_eq he hlater hkw
    rw [Nat.zero_add] at hgroups hcount
    constructor
    · rw [List.flatMap_cons, hgroups, hgroups', List.filterMap_append]
    · intro s hs
      rcases List.mem_cons.mp hs with rfl | hs
      exacts [hcount, hcount' s hs]

end

end Reckon
