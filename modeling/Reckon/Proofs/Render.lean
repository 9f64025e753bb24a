import Mathlib
import Reckon.Proofs.Nodes
import Reckon.Proofs.Tokens

/-!
# A tree loses nothing of its text

What spells an expression or a group is what it renders to (`Expression.Spelled.render_eq`), and
everything inside of a tree is spelled by a part of the text of the tree, from where it starts to
where it stops (`Expression.Inside.spelled_part`). So whatever is rendered is that part of the text
(`Tree.render_eq_extract`).

Rendering goes by the items. That it gives the same as going by the content, with the text of the
next group for each placeholder, is `Expression.fill_content`. In an arena it goes by the content and
by the places of the nodes. At the place of an expression or a group it gives what spells this one,
with fuel for as many steps as there are characters (`Expression.Spelled.renderExpression_eq`), so
each node renders to its part of the text too (`Arena.RendersBack`).
-/

namespace Reckon

/-! ### Parts of a text -/

/-- The characters of `text` from `start` up to `stop`, the latter not included, are `w`. -/
structure Stands (text : List Char) (start stop : Nat) (w : List Char) : Prop where
  le : start ≤ stop
  le_length : stop ≤ text.length
  extract : text.extract start stop = w

theorem stands_append (u w v : List Char) :
    Stands (u ++ (w ++ v)) u.length (u.length + w.length) w := by
  refine ⟨Nat.le_add_right _ _, ?_, ?_⟩
  · rw [List.length_append, List.length_append, ← Nat.add_assoc]
    exact Nat.le_add_right _ _
  · rw [List.extract_eq_take_drop, List.drop_left, Nat.add_sub_cancel_left, List.take_left]

/-! ### Rendering -/

mutual
theorem Expression.Spelled.render_eq : ∀ {d pos : Nat} {e : Expression} {w : List Char},
    Expression.Spelled d pos e w → e.render = w
  | _, _, _, _, .mk _ h => by
    rw [Expression.render]
    exact h.renderAll_eq
theorem Item.SpelledAll.renderAll_eq : ∀ {d pos : Nat} {items : List Item} {w : List Char},
    Item.SpelledAll d pos items w → Item.renderAll items = w
  | _, _, _, _, .nil => by rw [Item.renderAll]
  | _, _, _, _, .char _ hs => by
    rw [Item.renderAll, Item.render, hs.renderAll_eq]
    rfl
  | _, _, _, _, .group h hs => by rw [Item.renderAll, Item.render, h.render_eq, hs.renderAll_eq]
theorem Group.Spelled.render_eq : ∀ {d pos : Nat} {g : Group} {w : List Char},
    Group.Spelled d pos g w → g.render = w
  | _, _, _, _, .mk h => by
    rw [Group.render, h.renderAll_eq]
    rfl
theorem Expression.SpelledAll.renderAll_eq : ∀ {d pos : Nat} {es : List Expression} {w : List Char},
    Expression.SpelledAll d pos es w → Expression.renderAll es = w
  | _, _, _, _, .last h => by rw [Expression.renderAll, h.render_eq]
  | _, _, _, _, .more h hs => by
    -- the list behind a comma is not empty, so this is not the rule for a single expression
    have hne := hs.ne_nil
    rw [Expression.renderAll, h.render_eq, hs.renderAll_eq]
    exact hne
end

/-- Going by the content gives the same text as going by the items. -/
theorem Expression.fill_content {e : Expression} (h : e.Marked) :
    fill e.content (e.groups.map Group.render) = e.render := by
  obtain ⟨start, stop, items⟩ := e
  unfold Expression.Marked at h
  simp only [Expression.render, Expression.content, Expression.groups, Expression.items] at h ⊢
  induction items with
  | nil => rw [Item.renderAll]; rfl
  | cons i items ih =>
    have ih := ih fun c hc => h c (List.mem_cons_of_mem _ hc)
    cases i with
    | char c =>
      have hc : c ≠ placeholder := (isPlain_iff.mp (h c (List.mem_cons_self ..))).2.2.2
      rw [List.map_cons, List.filterMap_cons_none rfl, Item.renderAll, Item.render, ← ih]
      exact fill_cons_of_ne hc _ _
    | group g =>
      have hg : Item.group? (.group g) = some g := rfl
      rw [List.map_cons, List.filterMap_cons_some hg, List.map_cons, Item.renderAll, Item.render, ← ih]
      rfl

/-! ### Rendering an arena -/

section
variable {a : Arena}

theorem Arena.renderContent_cons_of_ne {group : Nat → Option (List Char)} {c : Char}
    (hc : c ≠ placeholder) (cs : List Char) (js : List Nat) :
    renderContent group (c :: cs) js = (renderContent group cs js).map (c :: ·) := by
  cases js with
  | nil => rw [renderContent]
  | cons => rw [renderContent, if_neg hc]

theorem Arena.renderChildren_cons {expression : Nat → Option (List Char)} {is : List Nat} (i : Nat)
    (hne : is ≠ []) : renderChildren expression (i :: is) = do
      return (← expression i) ++ separator :: (← renderChildren expression is) := by
  cases is with
  | nil => exact absurd rfl hne
  | cons =>
    rw [renderChildren]
    exact hne

mutual
/-- At the place of an expression that `w` spells the arena renders `w`. What is inside is shorter, so
the fuel lasts. -/
theorem Expression.Spelled.renderExpression_eq : ∀ {d pos i fuel : Nat} {x : Expression}
    {w : List Char}, x.Spelled d pos w → a.HasExpression i x → w.length < fuel →
      a.renderExpression fuel i = some w
  | _, _, _, fuel + 1, _, _, .mk _ h, hx, hf => by
    obtain ⟨js, found, groups⟩ := hx.node
    rw [Arena.renderExpression, found]
    exact h.renderContent_eq groups (Nat.le_of_lt_succ hf)
theorem Item.SpelledAll.renderContent_eq : ∀ {d pos fuel : Nat} {js : List Nat}
    {items : List Item} {w : List Char}, Item.SpelledAll d pos items w →
      List.Forall₂ a.HasGroup js (items.filterMap Item.group?) → w.length ≤ fuel →
        Arena.renderContent (a.renderGroup fuel) (items.map Item.mark) js = some w
  | _, _, _, _, _, _, .nil, _, _ => rfl
  | _, _, _, _, _, _, .char hc hs, hjs, hf => by
    have later := hs.renderContent_eq hjs (Nat.le_of_succ_le hf)
    rw [List.map_cons, Item.mark, Arena.renderContent_cons_of_ne (isPlain_iff.mp hc).2.2.2, later]
    rfl
  | _, _, _, _, _, _, .group h hs, .cons hj hjs, hf => by
    rw [List.length_append] at hf
    have here := h.renderGroup_eq hj (Nat.le_of_add_right_le hf)
    have later := hs.renderContent_eq hjs (Nat.le_of_add_left_le hf)
    rw [List.map_cons, Item.mark, Arena.renderContent, if_pos rfl, here, later]
    rfl
theorem Group.Spelled.renderGroup_eq : ∀ {d pos j fuel : Nat} {z : Group} {w : List Char},
    z.Spelled d pos w → a.HasGroup j z → w.length ≤ fuel → a.renderGroup fuel j = some w
  | _, _, _, fuel + 1, _, _, .mk h, hz, hf => by
    obtain ⟨is, found, children⟩ := hz.node
    rw [List.length_cons, List.length_append, List.length_singleton] at hf
    have inner := h.renderChildren_eq children (Nat.lt_of_succ_le (Nat.le_of_succ_le_succ hf))
    rw [Arena.renderGroup, found]
    simp only [GroupRow.node, Option.bind_eq_bind, Option.bind_some, inner]
    rfl
  | _, _, _, 0, _, _, .mk _, _, hf => absurd hf (Nat.not_succ_le_zero _)
theorem Expression.SpelledAll.renderChildren_eq : ∀ {d pos fuel : Nat} {is : List Nat}
    {xs : List Expression} {w : List Char}, Expression.SpelledAll d pos xs w →
      List.Forall₂ a.HasExpression is xs → w.length < fuel →
        Arena.renderChildren (a.renderExpression fuel) is = some w
  | _, _, _, _, _, _, .last h, .cons hi .nil, hf => h.renderExpression_eq hi hf
  | _, _, fuel, _ :: is, _, _, @Expression.SpelledAll.more _ _ _ _ u v h hs, .cons hi his, hf => by
    rw [List.length_append, List.length_cons] at hf
    have hu : u.length < fuel := by omega
    have hv : v.length < fuel := by omega
    have here := h.renderExpression_eq hi hu
    have later := hs.renderChildren_eq his hv
    have hne : is ≠ [] := by
      rintro rfl
      exact hs.ne_nil (List.forall₂_nil_left_iff.mp his)
    rw [Arena.renderChildren_cons _ hne, here, later]
    rfl
end

end

/-! ### Where it stands -/

section
variable {d : Nat} {root e : Expression} {g : Group} {text u x v : List Char}

theorem Expression.Spelled.stands (h : e.Spelled d u.length x) :
    Stands (u ++ (x ++ v)) e.start e.stop x := by
  cases h with
  | mk _ h => exact stands_append u x v

theorem Group.Spelled.stands (h : g.Spelled d u.length x) :
    Stands (u ++ (x ++ v)) g.start (g.stop + 1) x := by
  cases h with
  | @mk d _ b children y h =>
    have := stands_append u (b.opening :: (y ++ [b.closing])) v
    have stop : u.length + (b.opening :: (y ++ [b.closing])).length = u.length + 1 + y.length + 1 := by
      simp only [List.length_cons, List.length_append, List.length_nil]
      omega
    rwa [stop] at this

/-- An expression inside of one that spells a text stands there, with the text that spells it. -/
theorem Expression.Inside.stands (h : root.Inside e) (hr : root.Spelled d 0 text) :
    ∃ d' pos x, e.Spelled d' pos x ∧ Stands text e.start e.stop x := by
  obtain ⟨d', u, x, v, rfl, hx⟩ := h.spelled_part hr
  rw [Nat.zero_add] at hx
  exact ⟨d', _, x, hx, hx.stands⟩

theorem Expression.Inside.group_stands (h : root.Inside e) (hg : g ∈ e.groups)
    (hr : root.Spelled d 0 text) :
    ∃ d' pos x, g.Spelled d' pos x ∧ Stands text g.start (g.stop + 1) x := by
  obtain ⟨d', u, x, v, rfl, hx⟩ := h.spelled_part hr
  obtain ⟨u', y, v', rfl, hy⟩ := hx.group_of_mem hg
  have parts : u ++ (u' ++ (y ++ v') ++ v) = (u ++ u') ++ (y ++ (v' ++ v)) := by
    simp only [List.append_assoc]
  rw [Nat.zero_add, ← List.length_append] at hy
  rw [parts]
  exact ⟨_, _, y, hy, hy.stands⟩

theorem Stands.length_le {start stop : Nat} {w : List Char} (h : Stands text start stop w) :
    w.length ≤ text.length := by
  rw [← h.extract, List.extract_eq_take_drop, List.length_take, List.length_drop]
  omega

end

/-- Each node renders to the text from its start up to its stop, for a group the closing bracket
included, and the root to the whole text. -/
structure Arena.RendersBack (a : Arena) : Prop where
  expression : ∀ id node, a.expressions[id]? = some node →
    ∃ w, a.renderExpression a.fuel id = some w ∧ Stands a.text.stripped node.start node.stop w
  group : ∀ id node, a.groups[id]? = some node → ∃ w stop, node.stop = some stop ∧
    a.renderGroup a.fuel id = some w ∧ Stands a.text.stripped node.start (stop + 1) w
  root : a.render = some a.text.stripped

theorem Tree.arena_rendersBack {t : Tree} (hroot : t.root.Spelled d 0 t.text.stripped) :
    t.arena.RendersBack := by
  refine ⟨fun id node hnode => ?_, fun id node hnode => ?_, ?_⟩
  · obtain ⟨e, inside, he⟩ := exists_expression hnode
    obtain ⟨_, found, -⟩ := he.node
    obtain rfl := Option.some.inj (hnode.symm.trans found)
    obtain ⟨_, _, x, hx, stands⟩ := inside.stands hroot
    exact ⟨x, hx.renderExpression_eq he (Nat.lt_succ_of_le stands.length_le), stands⟩
  · obtain ⟨e, g, inside, hg, hid⟩ := exists_group hnode
    obtain ⟨_, found, -⟩ := hid.node
    obtain rfl := Option.some.inj (hnode.symm.trans found)
    obtain ⟨_, _, x, hx, stands⟩ := inside.group_stands hg hroot
    exact ⟨x, g.stop, rfl, hx.renderGroup_eq hid (Nat.le_succ_of_le stands.length_le), stands⟩
  · exact hroot.renderExpression_eq t.arena_hasExpression (Nat.lt_succ_self _)

/-- An expression of a tree renders to the text from its start up to its stop, a group to that from
its opening bracket to its closing one, and the tree to the whole text. So do the nodes of the arena
that is built for the tree. -/
theorem Tree.render_eq_extract {settings : Settings} {raw : String} {t : Tree}
    (h : Tree.ofRaw settings raw = .ok t) :
    (∀ e, t.root.Inside e →
      Stands t.text.stripped e.start e.stop e.render ∧
        fill e.content (e.groups.map Group.render) = e.render ∧
        ∀ g ∈ e.groups, Stands t.text.stripped g.start (g.stop + 1) g.render) ∧
      t.render = t.text.stripped ∧
      Arena.ofRawTokens settings raw = .ok t.arena ∧ t.arena.RendersBack ∧
      t.arena.render = some t.render := by
  obtain ⟨-, hroot⟩ := Tree.ofRaw_eq_ok_iff.mp h
  have built : Arena.ofRawTokens settings raw = .ok t.arena := by
    rw [Arena.ofRawTokens_eq, Arena.ofRaw_eq_map, h]
    rfl
  have whole : t.render = t.text.stripped := hroot.render_eq
  have back := arena_rendersBack hroot
  refine ⟨fun e he => ?_, whole, built, back, back.root.trans (congrArg some whole.symm)⟩
  obtain ⟨_, _, x, hx, stands⟩ := he.stands hroot
  rw [hx.render_eq]
  refine ⟨stands, (Expression.fill_content hx.marked).trans hx.render_eq, fun g hg => ?_⟩
  obtain ⟨_, _, y, hy, stands⟩ := he.group_stands hg hroot
  rw [hy.render_eq]
  exact stands

theorem Tree.render_call_of_two :
    ∃ t, Tree.ofRaw {} "f[x, 2]" = .ok t ∧ t.text.stripped = "f[x,2]".toList ∧
      (∀ e, t.root.Inside e →
        Stands t.text.stripped e.start e.stop e.render ∧
          fill e.content (e.groups.map Group.render) = e.render ∧
          ∀ g ∈ e.groups, Stands t.text.stripped g.start (g.stop + 1) g.render) ∧
      t.render = t.text.stripped ∧
      Arena.ofRawTokens {} "f[x, 2]" = .ok t.arena ∧ t.arena.RendersBack ∧
      t.arena.render = some t.render := by
  have h : Tree.ofRaw {} "f[x, 2]" =
      .ok ⟨⟨['f', '[', 'x', ',', ' ', '2', ']'], ['f', '[', 'x', ',', '2', ']'], [0, 1, 2, 3, 5, 6]⟩,
        .mk 0 6 [.char 'f', .group (.mk .square 1 5
          [.mk 2 3 [.char 'x'], .mk 4 5 [.char '2']])]⟩ := by rfl
  exact ⟨_, h, by decide, render_eq_extract h⟩

end Reckon
