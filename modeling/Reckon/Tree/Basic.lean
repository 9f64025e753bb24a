import Reckon.Symbol
import Reckon.Text.Basic

/-!
# The tree of groups

An expression is a run of items: plain characters and groups. A group holds one or more expressions
between two brackets, separated by commas. Both know the stretch of the stripped text they were read
from; of an expression `stop` is the position behind its last character, of a group that of its
closing bracket.

The `content` of an expression is its items written with one placeholder for each group. An offset
in the content is mapped back to the text by `realPosition`.
-/

namespace Reckon

mutual
inductive Expression
  | mk (start stop : Nat) (items : List Item)
inductive Item
  | char (c : Char)
  | group (g : Group)
inductive Group
  | mk (bracket : Bracket) (start stop : Nat) (children : List Expression)
end

namespace Group

def bracket : Group → Bracket
  | mk b _ _ _ => b

def start : Group → Nat
  | mk _ s _ _ => s

def stop : Group → Nat
  | mk _ _ e _ => e

/-- The expressions between the brackets. -/
def children : Group → List Expression
  | mk _ _ _ es => es

def dimension (g : Group) : Nat := g.children.length

end Group

namespace Item

/-- The character an item contributes to the content. -/
def mark : Item → Char
  | char c => c
  | group _ => placeholder

def group? : Item → Option Group
  | char _ => none
  | group g => some g

/-- The position behind an item that is read at `position`. -/
def behind (position : Nat) : Item → Nat
  | char _ => position + 1
  | group g => g.stop + 1

end Item

namespace Expression

def start : Expression → Nat
  | mk s _ _ => s

def stop : Expression → Nat
  | mk _ e _ => e

def items : Expression → List Item
  | mk _ _ is => is

def content (e : Expression) : List Char := e.items.map Item.mark

/-- The groups of an expression, in the order of their placeholders. -/
def groups (e : Expression) : List Group := e.items.filterMap Item.group?

/-- The position in the stripped text of the character at `offset` of the content. An offset beyond
the content gives the position behind it. -/
def realPosition (e : Expression) (offset : Nat) : Nat :=
  (e.items.take offset).foldl Item.behind e.start

end Expression

/-! ### Writing a tree back -/

mutual
/-- The text an expression was read from. -/
def Expression.render : Expression → List Char
  | .mk _ _ items => Item.renderAll items
def Item.render : Item → List Char
  | .char c => [c]
  | .group g => g.render
def Item.renderAll : List Item → List Char
  | [] => []
  | i :: is => i.render ++ Item.renderAll is
def Group.render : Group → List Char
  | .mk b _ _ children => b.opening :: Expression.renderAll children ++ [b.closing]
/-- Expressions with a comma between any two. -/
def Expression.renderAll : List Expression → List Char
  | [] => []
  | [e] => e.render
  | e :: es => e.render ++ separator :: Expression.renderAll es
end

/-- Some content with the next of `texts` in place of each placeholder. A placeholder that has none
left stays. -/
def fill : List Char → List (List Char) → List Char
  | [], _ => []
  | c :: cs, [] => c :: fill cs []
  | c :: cs, x :: xs => if c = placeholder then x ++ fill cs xs else c :: fill cs (x :: xs)

theorem fill_cons_of_ne {c : Char} (h : c ≠ placeholder) (cs : List Char) (xs : List (List Char)) :
    fill (c :: cs) xs = c :: fill cs xs := by
  cases xs with
  | nil => rfl
  | cons x xs => exact if_neg h

/-- An expression together with the text it was read from. -/
structure Tree where
  text : Text
  root : Expression

def Tree.render (t : Tree) : List Char := t.root.render

end Reckon
