import Reckon.Formula.Evaluate

/-!
# The precedence grammar

The other way to say what a formula means: it is the yield of a syntax tree, and the value of a tree
goes by recursion.

    sum     :=  term  |  sum (+ | -) term
    term    :=  power  |  term (* | /) power
    power   :=  atom  |  atom ^ power
    atom    :=  - atom  |  leaf

Not every formula is the yield of a tree. `Formula.shaped` asks whether each of its levels is one
operand and then pairs of an operator and an operand, all operands possibly negated.
`Formula.Proper` is more, what can be relied on in a formula that was read from a text.
-/

namespace Reckon

namespace Precedence

mutual
inductive Sum
  | term (t : Term)
  | add (l : Sum) (o : Operator) (tier : o.precedence = 1) (r : Term)
inductive Term
  | power (p : Power)
  | mul (l : Term) (o : Operator) (tier : o.precedence = 2) (r : Power)
inductive Power
  | atom (a : Atom)
  | pow (b : Atom) (e : Power)
inductive Atom
  | negate (a : Atom)
  | leaf (l : Leaf)
inductive Leaf
  | number (x : Fraction)
  | var (name : String)
  | call (f : Callable) (arguments : List Sum)
  | group (body : Sum)
end

/-! ### The yield -/

mutual
def Sum.formula : Sum → List Element
  | .term t => t.formula
  | .add l o _ r => l.formula ++ .operator o :: r.formula
def Term.formula : Term → List Element
  | .power p => p.formula
  | .mul l o _ r => l.formula ++ .operator o :: r.formula
def Power.formula : Power → List Element
  | .atom a => a.formula
  | .pow b e => b.formula ++ .operator .power :: e.formula
def Atom.formula : Atom → List Element
  | .negate a => .negate :: a.formula
  | .leaf l => [l.element]
def Leaf.element : Leaf → Element
  | .number x => .number x
  | .var name => .var name
  | .call f arguments => .call f (formulas arguments)
  | .group body => .group body.formula
def formulas : List Sum → List (List Element)
  | [] => []
  | s :: ss => s.formula :: formulas ss
end

/-! ### The value -/

section
variable (settings : Settings) (context : Context)

/-- The value of an operator, in lowest terms. -/
def combine (o : Operator) (x y : Fraction) : Except EvalFault Fraction :=
  (Evaluation.value settings o x y).map Fraction.reduce

mutual
def Sum.value : Sum → Except EvalFault Fraction
  | .term t => t.value
  | .add l o _ r => do
    let x ← l.value
    let y ← r.value
    combine settings o x y
def Term.value : Term → Except EvalFault Fraction
  | .power p => p.value
  | .mul l o _ r => do
    let x ← l.value
    let y ← r.value
    combine settings o x y
def Power.value : Power → Except EvalFault Fraction
  | .atom a => a.value
  | .pow b e => do
    let x ← b.value
    let y ← e.value
    combine settings .power x y
def Atom.value : Atom → Except EvalFault Fraction
  | .negate a => do
    let x ← a.value
    return -x
  | .leaf l => l.value
def Leaf.value : Leaf → Except EvalFault Fraction
  | .number x => .ok x
  | .var name =>
    match context name with
    | none => .error (.unknownVariable name)
    | some x => .ok x
  | .call f arguments => do
    let xs ← values arguments
    (f.operation xs).mapError (.function f.name)
  | .group body => do
    let x ← body.value
    return x.reduce
/-- The values of the arguments of a call, in lowest terms. -/
def values : List Sum → Except EvalFault (List Fraction)
  | [] => .ok []
  | s :: ss => do
    let x ← s.value
    let xs ← values ss
    return x.reduce :: xs
end

end

end Precedence

/-! ### The shape of a formula -/

namespace Formula

mutual
/-- Has each level the shape of operands with operators between them? -/
def shaped : List Element → Bool
  | [] => false
  | .negate :: es => shaped es
  | .operator _ :: _ => false
  | .number _ :: es | .var _ :: es => shapedTail es
  | .call _ arguments :: es => allShaped arguments && shapedTail es
  | .group body :: es => shaped body && shapedTail es
/-- The same of what follows an operand. -/
def shapedTail : List Element → Bool
  | [] => true
  | .operator _ :: es => shaped es
  | _ :: _ => false
def allShaped : List (List Element) → Bool
  | [] => true
  | a :: as => shaped a && allShaped as
end

end Formula

/-! ### Formulas of texts -/

mutual
/-- Is it a formula that a text can have whose groups are nested at most `d` deep? Each operand is
negated at most once, and a call has the arguments that its function was looked up for. -/
inductive Formula.Proper : (d : Nat) → List Element → Prop
  | plain {d : Nat} {x : Element} {es : List Element} (hx : Element.Proper d x)
      (hs : Formula.ProperTail d es) : Formula.Proper d (x :: es)
  | negated {d : Nat} {x : Element} {es : List Element} (hx : Element.Proper d x)
      (hs : Formula.ProperTail d es) : Formula.Proper d (.negate :: x :: es)
/-- The same of what follows an operand. -/
inductive Formula.ProperTail : (d : Nat) → List Element → Prop
  | nil {d : Nat} : Formula.ProperTail d []
  | cons {d : Nat} {o : Operator} {es : List Element} (h : Formula.Proper d es) :
      Formula.ProperTail d (.operator o :: es)
/-- The same of an operand. -/
inductive Element.Proper : (d : Nat) → Element → Prop
  | number {d : Nat} {x : Fraction} : Element.Proper d (.number x)
  | var {d : Nat} {name : String} : Element.Proper d (.var name)
  | call {d : Nat} {f : Callable} {arguments : List (List Element)} (nonempty : arguments ≠ [])
      (arity : arguments.length = f.arity) (h : ∀ a ∈ arguments, Formula.Proper d a) :
      Element.Proper (d + 1) (.call f arguments)
  | group {d : Nat} {body : List Element} (h : Formula.Proper d body) :
      Element.Proper (d + 1) (.group body)
end

end Reckon
