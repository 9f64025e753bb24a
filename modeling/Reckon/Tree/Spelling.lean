import Reckon.Tree.Basic

/-!
# The grammar of trees

What texts spell a tree, said twice. `Spelling.IsExpression d` is the grammar of the text alone, with
groups nested at most `d` deep:

    expression  :=  item  |  item expression
    item        :=  character  |  open list close
    list        :=  expression  |  expression , list

`Expression.Spelled d pos e w` also says which tree it is: `e` is what `w` spells where `pos`
characters stand before it.
-/

namespace Reckon

/-- Is it a character without a meaning of its own? -/
def isPlain (c : Char) : Bool :=
  (Bracket.ofOpening c).isNone && (Bracket.ofClosing c).isNone && c != separator && c != placeholder

namespace Spelling

mutual
inductive IsExpression : Nat → List Char → Prop
  | last {d : Nat} {w : List Char} (h : IsItem d w) : IsExpression d w
  | more {d : Nat} {u v : List Char} (hu : IsItem d u) (hv : IsExpression d v) :
      IsExpression d (u ++ v)
inductive IsItem : Nat → List Char → Prop
  | char {d : Nat} {c : Char} (h : isPlain c) : IsItem d [c]
  | group {d : Nat} {b : Bracket} {w : List Char} (h : IsList d w) :
      IsItem (d + 1) (b.opening :: (w ++ [b.closing]))
inductive IsList : Nat → List Char → Prop
  | last {d : Nat} {w : List Char} (h : IsExpression d w) : IsList d w
  | more {d : Nat} {u v : List Char} (hu : IsExpression d u) (hv : IsList d v) :
      IsList d (u ++ separator :: v)
end

end Spelling

/-! ### With the tree -/

mutual
inductive Expression.Spelled : Nat → Nat → Expression → List Char → Prop
  | mk {d pos : Nat} {items : List Item} {w : List Char} (hne : items ≠ [])
      (h : Item.SpelledAll d pos items w) :
      Expression.Spelled d pos (.mk pos (pos + w.length) items) w
inductive Item.SpelledAll : Nat → Nat → List Item → List Char → Prop
  | nil {d pos : Nat} : Item.SpelledAll d pos [] []
  | char {d pos : Nat} {c : Char} {items : List Item} {w : List Char} (h : isPlain c)
      (hs : Item.SpelledAll d (pos + 1) items w) : Item.SpelledAll d pos (.char c :: items) (c :: w)
  | group {d pos : Nat} {g : Group} {items : List Item} {u w : List Char}
      (h : Group.Spelled d pos g u) (hs : Item.SpelledAll d (pos + u.length) items w) :
      Item.SpelledAll d pos (.group g :: items) (u ++ w)
inductive Group.Spelled : Nat → Nat → Group → List Char → Prop
  | mk {d pos : Nat} {b : Bracket} {children : List Expression} {w : List Char}
      (h : Expression.SpelledAll d (pos + 1) children w) :
      Group.Spelled (d + 1) pos (.mk b pos (pos + 1 + w.length) children)
        (b.opening :: (w ++ [b.closing]))
inductive Expression.SpelledAll : Nat → Nat → List Expression → List Char → Prop
  | last {d pos : Nat} {e : Expression} {w : List Char} (h : Expression.Spelled d pos e w) :
      Expression.SpelledAll d pos [e] w
  | more {d pos : Nat} {e : Expression} {es : List Expression} {u v : List Char}
      (h : Expression.Spelled d pos e u)
      (hs : Expression.SpelledAll d (pos + u.length + 1) es v) :
      Expression.SpelledAll d pos (e :: es) (u ++ separator :: v)
end

end Reckon
