import Reckon.Fraction.Exact
import Reckon.Function.Basic
import Reckon.Names
import Reckon.Symbol

/-!
# Formulas

A formula is what an expression means before any value is known: operators and operands in the order
in which they were written. A group is an operand with a formula of its own, and so is each argument
of a call. Any sequence of elements is a formula, also one that no text spells.
-/

namespace Reckon

inductive Element
  /-- Negates the next operand. -/
  | negate
  | operator (o : Operator)
  | number (x : Fraction)
  | var (name : String)
  | call (f : Callable) (arguments : List (List Element))
  | group (body : List Element)

abbrev Formula := List Element

namespace Element

def isOperand : Element → Bool
  | negate | operator _ => false
  | _ => true

end Element

namespace Formula

/-! ### Variables -/

mutual
def elementNames : Element → List String
  | .negate | .operator _ | .number _ => []
  | .var name => [name]
  | .call _ arguments => argumentNames arguments
  | .group body => occurrences body
/-- The variables of a formula, in the order in which they occur. -/
def occurrences : List Element → List String
  | [] => []
  | e :: es => elementNames e ++ occurrences es
def argumentNames : List (List Element) → List String
  | [] => []
  | a :: as => occurrences a ++ argumentNames as
end

/-- The variables of a formula, sorted, each once. -/
def variableNames (f : Formula) : List String := sortedNames (occurrences f)

/-! ### Numbers -/

mutual
def elementNumbers : Element → List Fraction
  | .negate | .operator _ | .var _ => []
  | .number x => [x]
  | .call _ arguments => argumentNumbers arguments
  | .group body => numbers body
/-- The numbers of a formula, those inside of its operands included. -/
def numbers : List Element → List Fraction
  | [] => []
  | e :: es => elementNumbers e ++ numbers es
def argumentNumbers : List (List Element) → List Fraction
  | [] => []
  | a :: as => numbers a ++ argumentNumbers as
end

/-! ### Substitution -/

mutual
def substituteElement (name : String) (body : List Element) : Element → Element
  | .negate => .negate
  | .operator o => .operator o
  | .number x => .number x
  | .var n => if n = name then .group body else .var n
  | .call f arguments => .call f (substituteArguments name body arguments)
  | .group es => .group (substitute name body es)
/-- A formula with a group in place of each occurrence of a variable. -/
def substitute (name : String) (body : List Element) : List Element → List Element
  | [] => []
  | e :: es => substituteElement name body e :: substitute name body es
def substituteArguments (name : String) (body : List Element) :
    List (List Element) → List (List Element)
  | [] => []
  | a :: as => substitute name body a :: substituteArguments name body as
end

/-! ### Writing a formula -/

mutual
def renderElement : Element → List Char
  | .negate => [minusSign]
  | .operator o => [o.symbol]
  | .number x => x.exactChars
  | .var name => name.toList
  | .call f arguments =>
    f.name.toList ++ Bracket.round.opening :: renderArguments arguments ++ [Bracket.round.closing]
  | .group body => Bracket.round.opening :: render body ++ [Bracket.round.closing]
/-- The formula without gaps, every group between parentheses. -/
def render : List Element → List Char
  | [] => []
  | e :: es => renderElement e ++ render es
/-- Arguments with a comma between any two. -/
def renderArguments : List (List Element) → List Char
  | [] => []
  | [a] => render a
  | a :: as => render a ++ separator :: renderArguments as
end

end Formula

/-! ### Formulas that differ in how their numbers are held -/

mutual
/-- Are the elements alike, with numbers that are the same but may be different pairs? -/
inductive Element.Alike : Element → Element → Prop
  | negate : Element.Alike .negate .negate
  | operator {o : Operator} : Element.Alike (.operator o) (.operator o)
  | number {x y : Fraction} (h : x.same y) : Element.Alike (.number x) (.number y)
  | var {name : String} : Element.Alike (.var name) (.var name)
  | call {f : Callable} {as bs : List (List Element)} (h : Formula.AlikeAll as bs) :
      Element.Alike (.call f as) (.call f bs)
  | group {es fs : List Element} (h : Formula.Alike es fs) : Element.Alike (.group es) (.group fs)
inductive Formula.Alike : List Element → List Element → Prop
  | nil : Formula.Alike [] []
  | cons {x y : Element} {es fs : List Element} (hx : Element.Alike x y) (h : Formula.Alike es fs) :
      Formula.Alike (x :: es) (y :: fs)
inductive Formula.AlikeAll : List (List Element) → List (List Element) → Prop
  | nil : Formula.AlikeAll [] []
  | cons {a b : List Element} {as bs : List (List Element)} (ha : Formula.Alike a b)
      (h : Formula.AlikeAll as bs) : Formula.AlikeAll (a :: as) (b :: bs)
end

end Reckon
