import Mathlib
import Reckon.Proofs.Builder
import Reckon.Proofs.Tree

/-!
# Finished arenas are well formed

By induction on the tree, for outlines that start at any numbers `e` and `g`:

* the rows take the numbers behind these in one run each, and every one of them is linked once
  (`Outline.Linked`), but for the outermost;
* a walk over an arena that has the rows in their places meets them in this order
  (`Arena.meets_ofExpression`);
* of a tree that is spelled by a text every row is that of a finished node (`Outline.Finished`).

With `Arena.ofRaw_eq_map` this holds of every arena that is built from an input.
-/

namespace Reckon

namespace Outline

variable {e g : Nat} {o o' : Outline} {es es' gs gs' : List Nat}

/-! ### Links -/

/-- Of the numbers of the rows each is linked once, in the rows or in the lists `es` and `gs`. -/
structure Linked (e g : Nat) (o : Outline) (es gs : List Nat) : Prop where
  children : (es ++ o.groups.flatMap GroupRow.children).Perm (List.range' e o.expressions.length)
  owners : (gs ++ o.expressions.flatMap ExpressionRow.groups).Perm (List.range' g o.groups.length)

theorem linked_empty (e g : Nat) : Linked e g empty [] [] := ⟨.refl _, .refl _⟩

theorem perm_append_append {α : Type} {a b a' b' c d : List α} (h : (a ++ b).Perm c)
    (h' : (a' ++ b').Perm d) : ((a ++ a') ++ (b ++ b')).Perm (c ++ d) := by
  refine .trans ?_ (h.append h')
  rw [List.append_assoc, List.append_assoc]
  refine List.Perm.append_left a ?_
  rw [← List.append_assoc, ← List.append_assoc]
  exact List.perm_append_comm.append_right b'

theorem Linked.append (h : Linked e g o es gs)
    (h' : Linked (e + o.expressions.length) (g + o.groups.length) o' es' gs') :
    Linked e g (o.append o') (es ++ es') (gs ++ gs') := by
  constructor
  · rw [length_expressions_append, ← List.range'_append_1, Outline.append, List.flatMap_append]
    exact perm_append_append h.children h'.children
  · rw [length_groups_append, ← List.range'_append_1, Outline.append, List.flatMap_append]
    exact perm_append_append h.owners h'.owners

/-- The row of an expression links the groups, and its own number is left to be linked. -/
theorem Linked.expression (h : Linked (e + 1) g o [] gs) (x : Expression) :
    Linked e g ⟨⟨x, gs⟩ :: o.expressions, o.groups⟩ [e] [] := by
  constructor
  · rw [List.length_cons, List.range'_succ]
    exact h.children.cons e
  · exact h.owners

/-- The row of a group links the expressions, and its own number is left to be linked. -/
theorem Linked.group (h : Linked e (g + 1) o es []) (x : Group) :
    Linked e g ⟨o.expressions, ⟨x, es⟩ :: o.groups⟩ [] [g] := by
  constructor
  · exact h.children
  · rw [List.length_cons, List.range'_succ]
    exact h.owners.cons g

mutual
theorem linked_ofExpression : ∀ (x : Expression) (e g : Nat), Linked e g (ofExpression x e g) [e] []
  | .mk start stop items, e, g => by
    rw [ofExpression]
    exact (linked_ofItems items (e + 1) g).expression _
theorem linked_ofItems : ∀ (items : List Item) (e g : Nat),
    Linked e g (ofItems items e g).2 [] (ofItems items e g).1
  | [], e, g => by
    rw [ofItems]
    exact linked_empty e g
  | .char _ :: items, e, g => by
    rw [ofItems]
    exact linked_ofItems items e g
  | .group group :: items, e, g => by
    rw [ofItems]
    exact (linked_ofGroup group e g).append (linked_ofItems items _ _)
theorem linked_ofGroup : ∀ (x : Group) (e g : Nat), Linked e g (ofGroup x e g) [] [g]
  | .mk bracket start stop children, e, g => by
    rw [ofGroup]
    exact (linked_ofExpressions children e (g + 1)).group _
theorem linked_ofExpressions : ∀ (children : List Expression) (e g : Nat),
    Linked e g (ofExpressions children e g).2 (ofExpressions children e g).1 []
  | [], e, g => by
    rw [ofExpressions]
    exact linked_empty e g
  | child :: children, e, g => by
    rw [ofExpressions]
    exact (linked_ofExpression child e g).append (linked_ofExpressions children _ _)
end

end Outline

/-! ### The walk -/

namespace Arena

variable {a : Arena} {e g : Nat} {o o' : Outline}

/-- The arena has the nodes of the rows from `e` and from `g` on. -/
structure Has (a : Arena) (e g : Nat) (o : Outline) : Prop where
  expressions : o.expressions.map ExpressionRow.node <+: a.expressions.drop e
  groups : o.groups.map GroupRow.node <+: a.groups.drop g

theorem prefix_of_append {α : Type} {l xs ys : List α} {n : Nat} (h : xs ++ ys <+: l.drop n) :
    xs <+: l.drop n ∧ ys <+: l.drop (n + xs.length) := by
  obtain ⟨t, ht⟩ := h
  rw [List.append_assoc] at ht
  refine ⟨⟨ys ++ t, ht⟩, t, ?_⟩
  rw [← List.drop_drop, ← ht, List.drop_left]

theorem prefix_of_cons {α : Type} {l xs : List α} {x : α} {n : Nat} (h : x :: xs <+: l.drop n) :
    l[n]? = some x ∧ xs <+: l.drop (n + 1) := by
  obtain ⟨t, ht⟩ := h
  constructor
  · rw [← List.head?_drop, ← ht]
    rfl
  · refine ⟨t, ?_⟩
    rw [← List.drop_drop, ← ht]
    rfl

theorem Has.of_append (h : a.Has e g (o.append o')) :
    a.Has e g o ∧ a.Has (e + o.expressions.length) (g + o.groups.length) o' := by
  have hexpressions := h.expressions
  have hgroups := h.groups
  rw [Outline.append, List.map_append] at hexpressions hgroups
  obtain ⟨he, he'⟩ := prefix_of_append hexpressions
  obtain ⟨hg, hg'⟩ := prefix_of_append hgroups
  rw [List.length_map] at he' hg'
  exact ⟨⟨he, hg⟩, ⟨he', hg'⟩⟩

mutual
/-- What a walk meets is determined by where it starts. -/
theorem Meets.unique : ∀ {i : Nat} {es es' gs gs' : List Nat}, a.Meets i es gs → a.Meets i es' gs' →
    es = es' ∧ gs = gs'
  | _, _, _, _, _, .mk h hs, .mk h' hs' => by
    obtain rfl := Option.some.inj (h.symm.trans h')
    obtain ⟨rfl, rfl⟩ := hs.unique hs'
    exact ⟨rfl, rfl⟩
theorem MeetsGroups.unique : ∀ {js es es' gs gs' : List Nat}, a.MeetsGroups js es gs →
    a.MeetsGroups js es' gs' → es = es' ∧ gs = gs'
  | _, _, _, _, _, .nil, .nil => ⟨rfl, rfl⟩
  | _, _, _, _, _, .cons h hc hs, .cons h' hc' hs' => by
    obtain rfl := Option.some.inj (h.symm.trans h')
    obtain ⟨rfl, rfl⟩ := hc.unique hc'
    obtain ⟨rfl, rfl⟩ := hs.unique hs'
    exact ⟨rfl, rfl⟩
theorem MeetsAll.unique : ∀ {is es es' gs gs' : List Nat}, a.MeetsAll is es gs →
    a.MeetsAll is es' gs' → es = es' ∧ gs = gs'
  | _, _, _, _, _, .nil, .nil => ⟨rfl, rfl⟩
  | _, _, _, _, _, .cons h hs, .cons h' hs' => by
    obtain ⟨rfl, rfl⟩ := h.unique h'
    obtain ⟨rfl, rfl⟩ := hs.unique hs'
    exact ⟨rfl, rfl⟩
end

mutual
theorem meets_ofExpression : ∀ (x : Expression) {e g : Nat}, a.Has e g (Outline.ofExpression x e g) →
    a.Meets e (List.range' e (Outline.ofExpression x e g).expressions.length)
      (List.range' g (Outline.ofExpression x e g).groups.length)
  | .mk start stop items, e, g, h => by
    rw [Outline.ofExpression] at h ⊢
    obtain ⟨found, inner⟩ := prefix_of_cons h.expressions
    rw [List.length_cons, List.range'_succ]
    exact .mk found (meets_ofItems items ⟨inner, h.groups⟩)
theorem meets_ofItems : ∀ (items : List Item) {e g : Nat}, a.Has e g (Outline.ofItems items e g).2 →
    a.MeetsGroups (Outline.ofItems items e g).1
      (List.range' e (Outline.ofItems items e g).2.expressions.length)
      (List.range' g (Outline.ofItems items e g).2.groups.length)
  | [], e, g, h => by
    rw [Outline.ofItems]
    exact .nil
  | .char _ :: items, e, g, h => by
    rw [Outline.ofItems] at h ⊢
    exact meets_ofItems items h
  | .group (.mk bracket start stop children) :: items, e, g, h => by
    rw [Outline.ofItems] at h ⊢
    simp only at h ⊢
    obtain ⟨hgroup, hlater⟩ := h.of_append
    have later := meets_ofItems items hlater
    rw [Outline.length_expressions_append, Outline.length_groups_append, ← List.range'_append_1,
      ← List.range'_append_1]
    rw [Outline.ofGroup] at hgroup later ⊢
    obtain ⟨found, inner⟩ := prefix_of_cons hgroup.groups
    rw [List.length_cons, List.range'_succ, List.cons_append]
    exact .cons found (meets_ofExpressions children ⟨hgroup.expressions, inner⟩) later
theorem meets_ofExpressions : ∀ (children : List Expression) {e g : Nat},
    a.Has e g (Outline.ofExpressions children e g).2 →
    a.MeetsAll (Outline.ofExpressions children e g).1
      (List.range' e (Outline.ofExpressions children e g).2.expressions.length)
      (List.range' g (Outline.ofExpressions children e g).2.groups.length)
  | [], e, g, h => by
    rw [Outline.ofExpressions]
    exact .nil
  | child :: children, e, g, h => by
    rw [Outline.ofExpressions] at h ⊢
    simp only at h ⊢
    obtain ⟨hchild, hlater⟩ := h.of_append
    rw [Outline.length_expressions_append, Outline.length_groups_append, ← List.range'_append_1,
      ← List.range'_append_1]
    exact .cons (meets_ofExpression child hchild) (meets_ofExpressions children hlater)
end

end Arena

/-! ### The nodes -/

namespace Outline

variable {o o' : Outline}

/-- Every row is that of a finished node. -/
structure Finished (o : Outline) : Prop where
  expressions : ∀ row ∈ o.expressions, row.node.Finished
  groups : ∀ row ∈ o.groups, row.node.Finished

theorem finished_empty : Finished empty := ⟨nofun, nofun⟩

theorem Finished.append (h : o.Finished) (h' : o'.Finished) : (o.append o').Finished :=
  ⟨List.forall_mem_append.mpr ⟨h.expressions, h'.expressions⟩,
    List.forall_mem_append.mpr ⟨h.groups, h'.groups⟩⟩

theorem count_placeholder {d pos : Nat} {items : List Item} {w : List Char}
    (h : Item.SpelledAll d pos items w) (e g : Nat) :
    (items.map Item.mark).count placeholder = (ofItems items e g).1.length := by
  induction items generalizing pos w e g with
  | nil => rfl
  | cons i items ih =>
    cases h with
    | @char _ _ c _ _ h hs =>
      have hc : c ≠ placeholder := (isPlain_iff.mp h).2.2.2
      rw [List.map_cons, Item.mark, List.count_cons_of_ne hc, ofItems]
      exact ih hs e g
    | group h hs =>
      rw [List.map_cons, Item.mark, List.count_cons_self, ofItems, List.length_cons]
      exact congrArg (· + 1) (ih hs _ _)

mutual
theorem finished_ofExpression : ∀ {d pos : Nat} {x : Expression} {w : List Char},
    Expression.Spelled d pos x w → ∀ e g : Nat, (ofExpression x e g).Finished
  | _, _, _, _, .mk hne h, e, g => by
    rw [ofExpression]
    have inner := finished_ofItems h (e + 1) g
    refine ⟨List.forall_mem_cons.mpr ⟨⟨rfl, ?_, ?_⟩, inner.expressions⟩, inner.groups⟩
    · exact mt List.map_eq_nil_iff.mp hne
    · exact count_placeholder h (e + 1) g
theorem finished_ofItems : ∀ {d pos : Nat} {items : List Item} {w : List Char},
    Item.SpelledAll d pos items w → ∀ e g : Nat, (ofItems items e g).2.Finished
  | _, _, _, _, .nil, e, g => by
    rw [ofItems]
    exact finished_empty
  | _, _, _, _, .char _ hs, e, g => by
    rw [ofItems]
    exact finished_ofItems hs e g
  | _, _, _, _, .group h hs, e, g => by
    rw [ofItems]
    exact (finished_ofGroup h e g).append (finished_ofItems hs _ _)
theorem finished_ofGroup : ∀ {d pos : Nat} {x : Group} {w : List Char},
    Group.Spelled d pos x w → ∀ e g : Nat, (ofGroup x e g).Finished
  | _, _, _, _, .mk h, e, g => by
    rw [ofGroup]
    have inner := finished_ofExpressions h e (g + 1)
    refine ⟨inner.expressions, List.forall_mem_cons.mpr ⟨⟨rfl, ?_, rfl⟩, inner.groups⟩⟩
    have hne := List.length_pos_iff.mpr h.ne_nil
    rwa [← length_ofExpressions _ e (g + 1)] at hne
theorem finished_ofExpressions : ∀ {d pos : Nat} {children : List Expression} {w : List Char},
    Expression.SpelledAll d pos children w → ∀ e g : Nat, (ofExpressions children e g).2.Finished
  | _, _, _, _, .last h, e, g => by
    rw [ofExpressions_singleton]
    exact finished_ofExpression h e g
  | _, _, _, _, .more h hs, e, g => by
    rw [ofExpressions]
    exact (finished_ofExpression h e g).append (finished_ofExpressions hs _ _)
end

end Outline

/-! ### Arenas of inputs -/

theorem Tree.arena_wellFormed {t : Tree} {d pos : Nat} {w : List Char} (h : t.root.Spelled d pos w) :
    t.arena.WellFormed := by
  have linked := Outline.linked_ofExpression t.root 0 0
  have finished := Outline.finished_ofExpression h 0 0
  have has : t.arena.Has 0 0 t.outline := ⟨List.prefix_rfl, List.prefix_rfl⟩
  have walk := Arena.meets_ofExpression t.root has
  have expressions : t.arena.expressions.length = t.outline.expressions.length := List.length_map _
  have groups : t.arena.groups.length = t.outline.groups.length := List.length_map _
  have root : 1 ≤ t.outline.expressions.length := by
    have := linked.children.length_eq
    rw [List.length_range', List.length_append] at this
    exact this ▸ Nat.le_add_right _ _
  constructor
  · rfl
  · rw [expressions]
    have children := linked.children
    rw [show (Outline.ofExpression t.root 0 0).expressions.length =
      t.outline.expressions.length - 1 + 1 from (Nat.sub_add_cancel root).symm, List.range'_succ] at children
    have := children.cons_inv
    rwa [Tree.arena, List.flatMap_map]
  · rw [groups, List.range_eq_range', Tree.arena, List.flatMap_map]
    exact linked.owners
  · rw [expressions, groups, List.range_eq_range', List.range_eq_range']
    intro es gs
    constructor
    · exact fun h => h.unique walk
    · rintro ⟨rfl, rfl⟩
      exact walk
  · exact List.forall_mem_map.mpr finished.expressions
  · exact List.forall_mem_map.mpr finished.groups

/-- The arena of an input is that of its tree, and it is well formed. -/
theorem Arena.ofRaw_wellFormed {settings : Settings} {raw : String} {a : Arena}
    (h : ofRaw settings raw = .ok a) :
    (∃ t, Tree.ofRaw settings raw = .ok t ∧ a = t.arena) ∧ a.WellFormed := by
  rw [ofRaw_eq_map] at h
  rcases ht : Tree.ofRaw settings raw with fault | t
  · rw [ht] at h
    cases h
  · rw [ht] at h
    obtain rfl := Except.ok.inj h
    exact ⟨⟨t, rfl, rfl⟩, Tree.arena_wellFormed (Tree.ofRaw_eq_ok_iff.mp ht).2⟩

theorem Arena.ofRaw_nested_call :
    ∃ a, Arena.ofRaw {} "f[(x), 2]" = .ok a ∧ a.groups.map GroupNode.children = [[1, 3], [2]] ∧
      (∃ t, Tree.ofRaw {} "f[(x), 2]" = .ok t ∧ a = t.arena) ∧ a.WellFormed := by
  have h : Arena.ofRaw {} "f[(x), 2]" = .ok
      { text := ⟨['f', '[', '(', 'x', ')', ',', ' ', '2', ']'],
          ['f', '[', '(', 'x', ')', ',', '2', ']'], [0, 1, 2, 3, 4, 5, 7, 8]⟩
        expressions := [⟨['f', '$'], [0], 0, 8, .finalized⟩, ⟨['$'], [1], 2, 5, .finalized⟩,
          ⟨['x'], [], 3, 4, .finalized⟩, ⟨['2'], [], 6, 7, .finalized⟩]
        groups := [⟨'[', ']', some ']', 1, some 7, [1, 3], .finalized⟩,
          ⟨'(', ')', some ')', 2, some 4, [2], .finalized⟩]
        root := 0 } := by rfl
  exact ⟨_, h, rfl, ofRaw_wellFormed h⟩

end Reckon
