import Mathlib
import Reckon.Proofs.Defects
import Reckon.Proofs.Position

/-!
# The positions of a tree are exact

Every expression of a tree is spelled by a part of its text, so `Expression.realPosition` locates its
content there (`Expression.Spelled.located`). In the arena of the tree the same holds by numbers: the
groups of an expression are looked up in the arena, and start where those of the tree do
(`Arena.exists_nodes`).
-/

namespace Reckon

/-- The nodes of some groups are found, and start where the groups do. -/
theorem Arena.exists_nodes {a : Arena} {js : List Nat} {groups : List Group}
    (h : List.Forall₂ a.HasGroup js groups) : ∃ nodes : List GroupNode,
      js.map (a.groups[·]?) = nodes.map some ∧ nodes.map GroupNode.start = groups.map Group.start := by
  induction h with
  | nil => exact ⟨[], rfl, rfl⟩
  | @cons j g js groups here _ ih =>
    obtain ⟨children, hnode, -⟩ := here.node
    obtain ⟨nodes, hfound, hstart⟩ := ih
    refine ⟨GroupRow.node ⟨g, children⟩ :: nodes, ?_, ?_⟩
    · rw [List.map_cons, hnode, hfound, List.map_cons]
    · rw [List.map_cons, hstart, List.map_cons]
      rfl

namespace Tree

variable {settings : Settings} {raw : String} {t : Tree}

theorem located_of_inside {e : Expression} {d : Nat} (hroot : t.root.Spelled d 0 t.text.stripped)
    (he : t.root.Inside e) : Located t.text.stripped e.content (e.groups.map Group.start) e.stop
      e.realPosition := by
  obtain ⟨d', u, x, v, htext, hx⟩ := he.spelled_part hroot
  rw [Nat.zero_add] at hx
  rw [htext]
  exact hx.located

/-- Offsets in the content of an expression are mapped to the positions at which it stands in the
text, for every expression of a tree and for every number in its arena. -/
theorem realPosition_exact (h : Tree.ofRaw settings raw = .ok t) :
    (∀ e, t.root.Inside e → Located t.text.stripped e.content (e.groups.map Group.start) e.stop
      e.realPosition) ∧
    Arena.ofRawTokens settings raw = .ok t.arena ∧
    ∀ id node, t.arena.expressions[id]? = some node →
      ∃ (groups : List GroupNode) (position : Nat → Nat),
        node.groups.map (t.arena.groups[·]?) = groups.map some ∧
        (∀ offset, t.arena.realPosition id offset = .ok (position offset)) ∧
        Located t.arena.text.stripped node.content (groups.map GroupNode.start) node.stop position := by
  obtain ⟨-, hroot⟩ := Tree.ofRaw_eq_ok_iff.mp h
  refine ⟨fun e he => located_of_inside hroot he, ?_, fun id node hnode => ?_⟩
  · rw [Arena.ofRawTokens_eq, Arena.ofRaw_eq_map, h]
    rfl
  · obtain ⟨e, inside, he⟩ := exists_expression hnode
    obtain ⟨js, found, groups⟩ := he.node
    obtain rfl := Option.some.inj (hnode.symm.trans found)
    obtain ⟨nodes, hnodes, starts⟩ := Arena.exists_nodes groups
    obtain ⟨d, pos, w, hw⟩ := inside.spelled ⟨_, _, _, hroot⟩
    refine ⟨nodes, e.realPosition, hnodes, he.realPosition hw.marked, ?_⟩
    rw [starts]
    exact located_of_inside hroot inside

theorem realPosition_after_group : ∃ t, Tree.ofRaw {} "1 + f(2, 3) * x" = .ok t ∧
    (List.range 8).map t.root.realPosition = [0, 1, 2, 3, 8, 9, 10, 10] ∧
    Located t.text.stripped "1+f$*x".toList [3] 10 t.root.realPosition ∧
    Arena.ofRawTokens {} "1 + f(2, 3) * x" = .ok t.arena ∧
    ∃ (groups : List GroupNode) (position : Nat → Nat), [0].map (t.arena.groups[·]?) = groups.map some ∧
      (∀ offset, t.arena.realPosition 0 offset = .ok (position offset)) ∧
      Located t.arena.text.stripped "1+f$*x".toList (groups.map GroupNode.start) 10 position := by
  obtain ⟨t, ht⟩ : ∃ t, t = (⟨⟨['1', ' ', '+', ' ', 'f', '(', '2', ',', ' ', '3', ')', ' ', '*', ' ', 'x'],
      ['1', '+', 'f', '(', '2', ',', '3', ')', '*', 'x'], [0, 2, 4, 5, 6, 7, 9, 10, 12, 14]⟩,
      .mk 0 10 [.char '1', .char '+', .char 'f', .group (.mk .round 3 7
        [.mk 4 5 [.char '2'], .mk 6 7 [.char '3']]), .char '*', .char 'x']⟩ : Tree) := ⟨_, rfl⟩
  have h : Tree.ofRaw {} "1 + f(2, 3) * x" = .ok t := by
    rw [ht]
    rfl
  obtain ⟨exact, built, numbers⟩ := realPosition_exact h
  have root := exact t.root .root
  have zero := numbers 0 ⟨"1+f$*x".toList, [0], 0, 10, .finalized⟩ (by rw [ht]; rfl)
  refine ⟨t, h, by rw [ht]; rfl, ?_, built, zero⟩
  rw [ht] at root ⊢
  exact root

end Tree

end Reckon
