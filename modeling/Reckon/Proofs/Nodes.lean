import Mathlib
import Reckon.Proofs.Arena
import Reckon.Proofs.Groups

/-!
# The nodes of an arena

An arena has an expression at a place if the rows of its outline are there, and so for a group. Its
node names the places of what is right below (`HasExpression.node`, `HasGroup.node`), so each
expression inside of one has a place too, and a walk from there meets nothing else
(`Arena.Meets.inside`). In the arena of a tree this is all there is, since a walk from the root meets
every node.
-/

namespace Reckon

namespace Arena

variable {a : Arena} {i j : Nat} {x y : Expression} {z : Group}

def HasExpression (a : Arena) (i : Nat) (x : Expression) : Prop :=
  ∃ g, a.Has i g (Outline.ofExpression x i g)

def HasGroup (a : Arena) (j : Nat) (z : Group) : Prop := ∃ e, a.Has e j (Outline.ofGroup z e j)

/-! ### What a node names -/

theorem hasGroup_ofItems (items : List Item) {e g : Nat} (h : a.Has e g (Outline.ofItems items e g).2) :
    List.Forall₂ a.HasGroup (Outline.ofItems items e g).1 (items.filterMap Item.group?) := by
  induction items generalizing e g with
  | nil => exact .nil
  | cons item items ih =>
    cases item with
    | char c =>
      rw [Outline.ofItems] at h ⊢
      exact ih h
    | group z =>
      rw [Outline.ofItems] at h ⊢
      obtain ⟨here, later⟩ := h.of_append
      exact .cons ⟨e, here⟩ (ih later)

theorem hasExpression_ofExpressions (xs : List Expression) {e g : Nat}
    (h : a.Has e g (Outline.ofExpressions xs e g).2) :
    List.Forall₂ a.HasExpression (Outline.ofExpressions xs e g).1 xs := by
  induction xs generalizing e g with
  | nil => exact .nil
  | cons x xs ih =>
    rw [Outline.ofExpressions] at h ⊢
    obtain ⟨here, later⟩ := h.of_append
    exact .cons ⟨g, here⟩ (ih later)

theorem HasExpression.node (h : a.HasExpression i x) : ∃ js,
    a.expressions[i]? = some (ExpressionRow.node ⟨x, js⟩) ∧ List.Forall₂ a.HasGroup js x.groups := by
  obtain ⟨g, h⟩ := h
  cases x with
  | mk start stop items =>
    rw [Outline.ofExpression] at h
    obtain ⟨found, inner⟩ := prefix_of_cons h.expressions
    exact ⟨_, found, hasGroup_ofItems items ⟨inner, h.groups⟩⟩

theorem HasGroup.node (h : a.HasGroup j z) : ∃ is,
    a.groups[j]? = some (GroupRow.node ⟨z, is⟩) ∧ List.Forall₂ a.HasExpression is z.children := by
  obtain ⟨e, h⟩ := h
  cases z with
  | mk bracket start stop children =>
    rw [Outline.ofGroup] at h
    obtain ⟨found, inner⟩ := prefix_of_cons h.groups
    exact ⟨_, found, hasExpression_ofExpressions children ⟨h.expressions, inner⟩⟩

/-! ### What is inside -/

theorem exists_of_forall₂ {α β : Type} {R : α → β → Prop} {xs : List α} {ys : List β} {b : β}
    (h : List.Forall₂ R xs ys) (hb : b ∈ ys) : ∃ x, R x b := by
  induction h with
  | nil => cases hb
  | cons hxy _ ih =>
    rcases List.mem_cons.mp hb with rfl | hb
    · exact ⟨_, hxy⟩
    · exact ih hb

theorem HasExpression.of_inside (h : a.HasExpression i x) (hy : x.Inside y) :
    ∃ k, a.HasExpression k y := by
  induction hy with
  | root => exact ⟨i, h⟩
  | child _ hg hc ih =>
    obtain ⟨k, hk⟩ := ih
    obtain ⟨_, -, groups⟩ := hk.node
    obtain ⟨_, hj⟩ := exists_of_forall₂ groups hg
    obtain ⟨_, -, children⟩ := hj.node
    exact exists_of_forall₂ children hc

/-- The places are those of expressions inside of `r` and of their groups. -/
structure Within (a : Arena) (r : Expression) (es gs : List Nat) : Prop where
  expressions : ∀ k ∈ es, ∃ y, r.Inside y ∧ a.HasExpression k y
  groups : ∀ k ∈ gs, ∃ y z, r.Inside y ∧ z ∈ y.groups ∧ a.HasGroup k z

theorem within_nil (r : Expression) : a.Within r [] [] := ⟨nofun, nofun⟩

theorem Within.append {r : Expression} {es es' gs gs' : List Nat} (h : a.Within r es gs)
    (h' : a.Within r es' gs') : a.Within r (es ++ es') (gs ++ gs') :=
  ⟨List.forall_mem_append.mpr ⟨h.expressions, h'.expressions⟩,
    List.forall_mem_append.mpr ⟨h.groups, h'.groups⟩⟩

mutual
/-- A walk meets only what is inside of the expression where it starts. -/
theorem Meets.within {r : Expression} : ∀ {i : Nat} {x : Expression} {es gs : List Nat},
    a.Meets i es gs → a.HasExpression i x → r.Inside x → a.Within r es gs
  | _, _, _, _, .mk h hs, hx, inside => by
    obtain ⟨js, found, groups⟩ := hx.node
    obtain rfl := congrArg ExpressionNode.groups (Option.some.inj (h.symm.trans found))
    have below := hs.within groups fun z hz => ⟨_, inside, hz⟩
    exact ⟨List.forall_mem_cons.mpr ⟨⟨_, inside, hx⟩, below.expressions⟩, below.groups⟩
theorem MeetsGroups.within {r : Expression} : ∀ {js : List Nat} {zs : List Group}
    {es gs : List Nat}, a.MeetsGroups js es gs → List.Forall₂ a.HasGroup js zs →
      (∀ z ∈ zs, ∃ y, r.Inside y ∧ z ∈ y.groups) → a.Within r es gs
  | _, _, _, _, .nil, .nil, _ => within_nil r
  | _, _, _, _, .cons h hc hs, .cons hz hzs, inside => by
    obtain ⟨⟨y, hy, hmem⟩, others⟩ := List.forall_mem_cons.mp inside
    obtain ⟨is, found, children⟩ := hz.node
    obtain rfl := congrArg GroupNode.children (Option.some.inj (h.symm.trans found))
    have below := (hc.within children fun c hc => .child hy hmem hc).append (hs.within hzs others)
    exact ⟨below.expressions, List.forall_mem_cons.mpr ⟨⟨y, _, hy, hmem, hz⟩, below.groups⟩⟩
theorem MeetsAll.within {r : Expression} : ∀ {is : List Nat} {xs : List Expression}
    {es gs : List Nat}, a.MeetsAll is es gs → List.Forall₂ a.HasExpression is xs →
      (∀ x ∈ xs, r.Inside x) → a.Within r es gs
  | _, _, _, _, .nil, .nil, _ => within_nil r
  | _, _, _, _, .cons h hs, .cons hx hxs, inside => by
    obtain ⟨here, others⟩ := List.forall_mem_cons.mp inside
    exact (h.within hx here).append (hs.within hxs others)
end

end Arena

/-! ### The arena of a tree -/

namespace Tree

variable {t : Tree}

theorem arena_hasExpression (t : Tree) : t.arena.HasExpression 0 t.root :=
  ⟨0, List.prefix_rfl, List.prefix_rfl⟩

/-- Every node of the arena is that of something in the tree. -/
theorem arena_within (t : Tree) : t.arena.Within t.root (List.range t.arena.expressions.length)
    (List.range t.arena.groups.length) := by
  have walk := Arena.meets_ofExpression t.root (a := t.arena) (e := 0) (g := 0)
    ⟨List.prefix_rfl, List.prefix_rfl⟩
  have expressions : t.arena.expressions.length = t.outline.expressions.length := List.length_map _
  have groups : t.arena.groups.length = t.outline.groups.length := List.length_map _
  rw [expressions, groups, List.range_eq_range', List.range_eq_range']
  exact walk.within t.arena_hasExpression .root

theorem exists_expression {id : Nat} {node : ExpressionNode}
    (h : t.arena.expressions[id]? = some node) :
    ∃ e, t.root.Inside e ∧ t.arena.HasExpression id e := by
  obtain ⟨hid, -⟩ := List.getElem?_eq_some_iff.mp h
  exact t.arena_within.expressions id (List.mem_range.mpr hid)

theorem exists_group {id : Nat} {node : GroupNode} (h : t.arena.groups[id]? = some node) :
    ∃ e g, t.root.Inside e ∧ g ∈ e.groups ∧ t.arena.HasGroup id g := by
  obtain ⟨hid, -⟩ := List.getElem?_eq_some_iff.mp h
  exact t.arena_within.groups id (List.mem_range.mpr hid)

end Tree

end Reckon
