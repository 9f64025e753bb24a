import Reckon.Pattern.Cursor
import Reckon.Regex.Dialect

/-!
# Engines

An engine compiles sources of regular expressions and runs the programs they become. Which sources it
compiles and how it runs a program is its own matter. What is relied on is said by two contracts
against a notation: a source that compiles is read as an expression of that notation, and the program
has the capture groups of the expression (`Engine.Counts`), or finds matches in the texts where the
expression is found (`Engine.Decides`).
-/

namespace Reckon

structure Engine where
  Program : Type
  compile : List Char → Option Program
  /-- How many capture groups a program has, the whole match not among them. -/
  captureCount : Program → Nat
  /-- The end of the leftmost match in a text, with the ends of the groups passed on the way. -/
  captures : Program → List Char → Option Cursor
  isMatch : Program → List Char → Bool
  /-- The matches in a text, left to right. -/
  tokens : Program → List Char → List Span

namespace Engine

/-- What compiles has the capture groups of the expression it is read as. -/
def Counts (E : Engine) (D : Dialect) : Prop :=
  ∀ source program, E.compile source = some program →
    ∃ p, D.Parses source p ∧ E.captureCount program = p.captures

/-- What compiles matches in a text exactly if the expression it is read as is found there. -/
def Decides (E : Engine) (D : Dialect) : Prop :=
  ∀ source program, E.compile source = some program →
    ∃ p, D.Parses source p ∧ ∀ text, E.isMatch program text ↔ p.Finds D.sense text

end Engine

end Reckon
