/-!
# The symbols of the notation

Operators, brackets and the few other characters that have a meaning of their own.
-/

namespace Reckon

inductive Operator
  | add
  | subtract
  | multiply
  | divide
  | power
deriving DecidableEq, Repr

namespace Operator

def all : List Operator := [add, subtract, multiply, divide, power]

def symbol : Operator → Char
  | add => '+'
  | subtract => '-'
  | multiply => '*'
  | divide => '/'
  | power => '^'

def ofSymbol (c : Char) : Option Operator := all.find? fun o => o.symbol = c

/-- Operators of higher precedence go first. -/
def precedence : Operator → Nat
  | add | subtract => 1
  | multiply | divide => 2
  | power => 3

/-- Of two powers the right one goes first, of any other two of one precedence the left one. -/
def isLeftAssociative : Operator → Bool
  | power => false
  | _ => true

/-- Does `earlier`, to the left of `o`, go first? -/
def yieldsTo (o earlier : Operator) : Bool :=
  if o.isLeftAssociative then o.precedence ≤ earlier.precedence
  else o.precedence < earlier.precedence

theorem ofSymbol_symbol (o : Operator) : ofSymbol o.symbol = some o := by cases o <;> rfl

end Operator

/-- The mark of a negated operand. -/
def minusSign : Char := '-'

inductive Bracket
  | round
  | square
  | curly
deriving DecidableEq, Repr

namespace Bracket

def all : List Bracket := [round, square, curly]

def opening : Bracket → Char
  | round => '('
  | square => '['
  | curly => '{'

def closing : Bracket → Char
  | round => ')'
  | square => ']'
  | curly => '}'

def ofOpening (c : Char) : Option Bracket := all.find? fun b => b.opening = c

def ofClosing (c : Char) : Option Bracket := all.find? fun b => b.closing = c

theorem ofOpening_opening (b : Bracket) : ofOpening b.opening = some b := by cases b <;> rfl

theorem ofClosing_closing (b : Bracket) : ofClosing b.closing = some b := by cases b <;> rfl

end Bracket

/-- Stands for a group in the content of an expression. -/
def placeholder : Char := '$'

/-- Separates the expressions of a group. -/
def separator : Char := ','

end Reckon
