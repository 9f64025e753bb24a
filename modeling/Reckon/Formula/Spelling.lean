import Mathlib
import Reckon.Formula.Resolve
import Reckon.Grammar.Notation

/-!
# The language of contents

What content is made of, said of the text alone:

    content  :=  unary  |  content operator unary
    unary    :=  operand  |  - operand
    operand  :=  $  |  name $ .. $  |  name  |  number

A number may have a minus sign of its own. A minus sign that stands before an operand is read as its
negation, so only one that does not is part of the number.

A resolver accepts an expression whose content is of this language and whose steps it admits: it is
asked for each function with the dimension of the groups that the placeholders of the call stand
for, and for each number with its parts.
-/

namespace Reckon

inductive Operand.Spelled : Operand → List Char → Prop
  | group : Operand.Spelled .placeholder [Reckon.placeholder]
  | call {name : List Char} {n : Nat} (h : Notation.Name name) :
      Operand.Spelled (.call name (n + 1)) (name ++ List.replicate (n + 1) Reckon.placeholder)
  | var {name : List Char} (h : Notation.Name name) : Operand.Spelled (.var name) name
  | number {p : NumberParts} (h : p.Fits) :
      Operand.Spelled (.number p.entries.literal (some p)) p.entries.literal

/-- `Unary negated x w`: `w` is the operand `x`, possibly negated. -/
inductive Unary : Bool → Operand → List Char → Prop
  | negated {x : Operand} {w : List Char} (h : x.Spelled w) : Unary true x (minusSign :: w)
  | plain {x : Operand} {w : List Char} (h : x.Spelled w)
      (hm : ∀ (y : Operand) (v : List Char), w = minusSign :: v → ¬ y.Spelled v) : Unary false x w

/-- Pairs of an operator and an operand, behind `offset` characters, with their steps. -/
inductive Pairs : Nat → List Step → List Char → Prop
  | nil {offset : Nat} : Pairs offset [] []
  | cons {offset : Nat} {o : Operator} {negated : Bool} {x : Operand} {steps : List Step}
      {u w : List Char} (hu : Unary negated x u) (hs : Pairs (offset + 1 + u.length) steps w) :
      Pairs offset (⟨some o, negated, x, offset + 1 + negated.toNat⟩ :: steps)
        (o.symbol :: (u ++ w))

/-- Content with its steps. -/
inductive Content : List Step → List Char → Prop
  | mk {negated : Bool} {x : Operand} {steps : List Step} {u w : List Char}
      (hu : Unary negated x u) (hs : Pairs u.length steps w) :
      Content (⟨none, negated, x, negated.toNat⟩ :: steps) (u ++ w)

/-- The first `n` characters of `cs` are the longest start of `cs` that is content. -/
structure Content.Longest (steps : List Step) (cs : List Char) (n : Nat) : Prop where
  le : n ≤ cs.length
  content : Content steps (cs.take n)
  longest : ∀ k ≤ cs.length, ∀ steps', Content steps' (cs.take k) → k ≤ n

/-! ### What is accepted -/

/-- The groups that the placeholders of an operand stand for. -/
def Step.groups (s : Step) (e : Expression) : List Group :=
  match s.operand with
  | .placeholder => ((e.items.drop s.offset).take 1).filterMap Item.group?
  | .call name n => ((e.items.drop (s.offset + name.length)).take n).filterMap Item.group?
  | .var _ | .number _ _ => []

/-- Is `e` the root or an expression of a group of one that is? -/
inductive Expression.Inside (root : Expression) : Expression → Prop
  | root : Expression.Inside root root
  | child {e c : Expression} {g : Group} (h : Expression.Inside root e) (hg : g ∈ e.groups)
      (hc : c ∈ g.children) : Expression.Inside root c

namespace Resolver

variable (r : Resolver) (e : Expression)

/-- Does the operand of a step of `e` have a meaning? -/
def Admits (s : Step) : Prop :=
  match s.operand with
  | .placeholder => (s.groups e).map Group.dimension = [1]
  | .call name _ =>
    (r.lookup (String.ofList name) ((s.groups e).map Group.dimension).sum).isSome
  | .var _ => True
  | .number _ parts => ∃ p x, parts = some p ∧ r.numbers p.entries = .ok x

def Accepts : Prop := ∃ steps, Content steps e.content ∧ ∀ s ∈ steps, r.Admits e s

/-- Does the operand of a step resolve, the expressions of its groups included? -/
def Resolves (s : Step) : Prop :=
  r.Admits e s ∧ ∀ g ∈ s.groups e, ∀ c ∈ g.children, ∃ f, r.resolve c = .ok f

end Resolver

end Reckon
