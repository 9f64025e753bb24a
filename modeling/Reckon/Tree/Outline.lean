import Reckon.Tree.Basic

/-!
# The outline of a tree

An outline lists the expressions and the groups of a tree in two tables that refer to each other by
number. Each kind is numbered from 0 in the order in which a walk from the root, outer ones first
and left to right, meets it.
-/

namespace Reckon

/-- An expression and the numbers of its groups. -/
structure ExpressionRow where
  expression : Expression
  groups : List Nat

/-- A group and the numbers of its expressions. -/
structure GroupRow where
  group : Group
  children : List Nat

structure Outline where
  expressions : List ExpressionRow
  groups : List GroupRow

namespace Outline

def empty : Outline := ⟨[], []⟩

def append (a b : Outline) : Outline := ⟨a.expressions ++ b.expressions, a.groups ++ b.groups⟩

mutual
/-- The rows of an expression that gets the number `e`, in a tree that has `g` groups before. -/
def ofExpression : Expression → (e g : Nat) → Outline
  | .mk start stop items, e, g =>
    let inner := ofItems items (e + 1) g
    ⟨⟨.mk start stop items, inner.1⟩ :: inner.2.expressions, inner.2.groups⟩
/-- The numbers of the groups among some items, and the rows below. -/
def ofItems : List Item → (e g : Nat) → List Nat × Outline
  | [], _, _ => ([], empty)
  | .char _ :: items, e, g => ofItems items e g
  | .group group :: items, e, g =>
    let rows := ofGroup group e g
    let later := ofItems items (e + rows.expressions.length) (g + rows.groups.length)
    (g :: later.1, rows.append later.2)
/-- The rows of a group that gets the number `g`, in a tree that has `e` expressions before. -/
def ofGroup : Group → (e g : Nat) → Outline
  | .mk bracket start stop children, e, g =>
    let inner := ofExpressions children e (g + 1)
    ⟨inner.2.expressions, ⟨.mk bracket start stop children, inner.1⟩ :: inner.2.groups⟩
/-- The numbers of some expressions, and the rows below. -/
def ofExpressions : List Expression → (e g : Nat) → List Nat × Outline
  | [], _, _ => ([], empty)
  | child :: children, e, g =>
    let rows := ofExpression child e g
    let later := ofExpressions children (e + rows.expressions.length) (g + rows.groups.length)
    (e :: later.1, rows.append later.2)
end

end Outline

/-- The outline of a tree; its root has the number 0. -/
def Tree.outline (t : Tree) : Outline := Outline.ofExpression t.root 0 0

end Reckon
