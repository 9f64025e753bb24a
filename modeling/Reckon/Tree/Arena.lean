import Reckon.Tree.Outline

/-!
# The arena of a tree

An arena keeps the expressions and the groups of a tree in two lists, and each node names the others
by their places in them. While a text is read a node is still being built; at the end of it, or of
the input, it is finalized and does not change any more.

`Arena.WellFormed` is what can be relied on in a finished arena, and `Tree.arena` is the arena of a
tree.
-/

namespace Reckon

inductive NodeState
  | building
  | finalized
deriving DecidableEq, Repr

/-- An expression, with the places of its groups in the order of their placeholders. -/
structure ExpressionNode where
  content : List Char
  groups : List Nat
  start : Nat
  /-- The position behind the last character. -/
  stop : Nat
  state : NodeState
deriving DecidableEq, Repr

/-- A group, with the places of its expressions. -/
structure GroupNode where
  opening : Char
  /-- The bracket that has to close the group. -/
  expected : Char
  /-- The bracket that closed it. -/
  actual : Option Char
  start : Nat
  stop : Option Nat
  children : List Nat
  state : NodeState
deriving DecidableEq, Repr

def GroupNode.dimension (g : GroupNode) : Nat := g.children.length

structure Arena where
  text : Text
  expressions : List ExpressionNode
  groups : List GroupNode
  root : Nat
deriving DecidableEq, Repr

/-! ### Positions in the text -/

namespace Arena

/-- The position behind some content that starts at `position`. The placeholders in it stand for the
first ones of `groups`. -/
def behind (a : Arena) : (content : List Char) → (groups : List Nat) → (position : Nat) →
    Except Defect Nat
  | [], _, position => .ok position
  | c :: cs, groups, position =>
    if c = placeholder then
      match groups with
      | [] => .error .missingGroup
      | g :: groups =>
        match a.groups[g]? with
        | none => .error .missingNode
        | some group => a.behind cs groups (group.stop.getD position + 1)
    else a.behind cs groups (position + 1)

/-- The position in the stripped text of the character at `offset` of the content of an expression. -/
def realPosition (a : Arena) (id offset : Nat) : Except Defect Nat :=
  match a.expressions[id]? with
  | none => .error .missingNode
  | some e => a.behind (e.content.take offset) e.groups e.start

/-! ### Writing an arena back -/

/-- Some content with the texts of the next groups in place of its placeholders. A placeholder that
has no group left stays. -/
def renderContent (group : Nat → Option (List Char)) :
    (content : List Char) → (groups : List Nat) → Option (List Char)
  | [], _ => some []
  | c :: cs, [] => (renderContent group cs []).map (c :: ·)
  | c :: cs, g :: groups =>
    if c = placeholder then do return (← group g) ++ (← renderContent group cs groups)
    else (renderContent group cs (g :: groups)).map (c :: ·)

/-- The texts of some expressions, with a comma between any two. -/
def renderChildren (expression : Nat → Option (List Char)) :
    (children : List Nat) → Option (List Char)
  | [] => some []
  | [i] => expression i
  | i :: is => do return (← expression i) ++ separator :: (← renderChildren expression is)

mutual
/-- The text of the expression `id`, if the nodes that it takes are there and nested less than `fuel`
deep. -/
def renderExpression (a : Arena) : (fuel id : Nat) → Option (List Char)
  | 0, _ => none
  | fuel + 1, id => do
    let e ← a.expressions[id]?
    renderContent (a.renderGroup fuel) e.content e.groups
/-- The text of the group `id`. -/
def renderGroup (a : Arena) : (fuel id : Nat) → Option (List Char)
  | 0, _ => none
  | fuel + 1, id => do
    let g ← a.groups[id]?
    let inner ← renderChildren (a.renderExpression fuel) g.children
    return g.opening :: (inner ++ [g.actual.getD g.expected])
end

/-- The fuel for any node. A node in another one has fewer characters than that one. -/
def fuel (a : Arena) : Nat := a.text.stripped.length + 1

def render (a : Arena) : Option (List Char) := a.renderExpression a.fuel a.root

end Arena

/-! ### Walking an arena -/

mutual
/-- The walk from the expression `i`, outer nodes first and left to right, meets the expressions `es`
and the groups `gs`. -/
inductive Arena.Meets (a : Arena) : (i : Nat) → (es gs : List Nat) → Prop
  | mk {i : Nat} {e : ExpressionNode} {es gs : List Nat} (h : a.expressions[i]? = some e)
      (hs : Arena.MeetsGroups a e.groups es gs) : Arena.Meets a i (i :: es) gs
/-- The same for the groups of an expression, one after the other. -/
inductive Arena.MeetsGroups (a : Arena) : (js : List Nat) → (es gs : List Nat) → Prop
  | nil : Arena.MeetsGroups a [] [] []
  | cons {j : Nat} {g : GroupNode} {js es es' gs gs' : List Nat} (h : a.groups[j]? = some g)
      (hc : Arena.MeetsAll a g.children es gs) (hs : Arena.MeetsGroups a js es' gs') :
      Arena.MeetsGroups a (j :: js) (es ++ es') (j :: (gs ++ gs'))
/-- The same for the expressions of a group. -/
inductive Arena.MeetsAll (a : Arena) : (is : List Nat) → (es gs : List Nat) → Prop
  | nil : Arena.MeetsAll a [] [] []
  | cons {i : Nat} {is es es' gs gs' : List Nat} (h : Arena.Meets a i es gs)
      (hs : Arena.MeetsAll a is es' gs') : Arena.MeetsAll a (i :: is) (es ++ es') (gs ++ gs')
end

/-! ### Finished arenas -/

structure ExpressionNode.Finished (e : ExpressionNode) : Prop where
  state : e.state = .finalized
  content : e.content ≠ []
  placeholders : e.content.count placeholder = e.groups.length

structure GroupNode.Finished (g : GroupNode) : Prop where
  state : g.state = .finalized
  dimension : 1 ≤ g.dimension
  closed : g.actual = some g.expected

structure Arena.WellFormed (a : Arena) : Prop where
  root : a.root = 0
  /-- Each expression but the root is a child once, the root is none. -/
  children : (a.groups.flatMap GroupNode.children).Perm (List.range' 1 (a.expressions.length - 1))
  /-- Each group belongs to an expression once. -/
  owners : (a.expressions.flatMap ExpressionNode.groups).Perm (List.range a.groups.length)
  /-- A walk from the root meets all of them in the order of their places. -/
  walk : ∀ es gs, a.Meets a.root es gs ↔
    es = List.range a.expressions.length ∧ gs = List.range a.groups.length
  expressions : ∀ e ∈ a.expressions, e.Finished
  groups : ∀ g ∈ a.groups, g.Finished

/-! ### The arena of a tree -/

def ExpressionRow.node (row : ExpressionRow) : ExpressionNode :=
  ⟨row.expression.content, row.groups, row.expression.start, row.expression.stop, .finalized⟩

def GroupRow.node (row : GroupRow) : GroupNode :=
  ⟨row.group.bracket.opening, row.group.bracket.closing, some row.group.bracket.closing,
    row.group.start, some row.group.stop, row.children, .finalized⟩

def Tree.arena (t : Tree) : Arena :=
  ⟨t.text, t.outline.expressions.map ExpressionRow.node, t.outline.groups.map GroupRow.node, 0⟩

end Reckon
