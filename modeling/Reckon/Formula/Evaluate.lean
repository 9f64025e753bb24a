import Reckon.Formula.Basic
import Reckon.Settings

/-!
# Evaluation

A formula is read once, with two stacks. An operator waits until the operator after it is known:
those before it that go first are applied to the two topmost values. Negations are counted modulo
two and take effect on the next operand. In the end the waiting operators are applied and a single
value must be left.

Every applied operator and every finished formula gives lowest terms.
-/

namespace Reckon

abbrev Context := String → Option Fraction

def Context.ofList (entries : List (String × Fraction)) : Context := fun name => entries.lookup name

/-- Do both have values for the same names, with values that are the same but may be different
pairs? -/
def Context.Alike (c d : Context) : Prop :=
  ∀ name, Option.Rel (fun x y => x.same y) (c name) (d name)

def bitLength (n : Nat) : Nat := if n = 0 then 0 else n.log2 + 1

/-- Sizes of powers are counted up to here, the largest 64 bit word. -/
def maxSize : Nat := 18446744073709551615

namespace Evaluation

def exponent (settings : Settings) (y : Fraction) : Except EvalFault Int :=
  if y.isWhole then
    if y.trunc.natAbs ≤ settings.maxExponent.toNat then .ok y.trunc
    else .error (.exponentTooLarge y.exact settings.maxExponent.toNat)
  else .error (.fractionalExponent y.exact)

/-- A bound on the size of a power: that of the base, in lowest terms, times the exponent. -/
def powerSize (x : Fraction) (e : Int) : Nat :=
  min (max (bitLength x.reduce.num.natAbs) (bitLength x.reduce.den) * e.natAbs) maxSize

def power (settings : Settings) (x y : Fraction) : Except EvalFault Fraction :=
  match exponent settings y with
  | .error fault => .error fault
  | .ok e =>
    if settings.maxResultBits.toNat < powerSize x e then
      .error (.resultTooLarge settings.maxResultBits.toNat)
    else (x.pow e).mapError .arithmetic

/-- The value of an operator, not reduced. -/
def value (settings : Settings) (o : Operator) (x y : Fraction) : Except EvalFault Fraction :=
  match o with
  | .add => .ok (x + y)
  | .subtract => .ok (x - y)
  | .multiply => .ok (x * y)
  | .divide => (x.div y).mapError .arithmetic
  | .power => power settings x y

/-- Applies an operator to the two topmost values, of which the upper one is on its right. -/
def apply (settings : Settings) (o : Operator) : List Fraction → Except EvalFault (List Fraction)
  | y :: x :: values => (value settings o x y).map fun z => z.reduce :: values
  | _ => .error .nothingToEvaluate

/-- How far a formula was read, the latest value and the latest operator first. -/
structure Machine where
  values : List Fraction
  operators : List Operator
  negated : Bool
deriving DecidableEq, Repr

namespace Machine

def start : Machine := ⟨[], [], false⟩

/-- Applies the waiting operators that go before `o`. -/
def unwind (settings : Settings) (o : Operator) :
    List Operator → List Fraction → Except EvalFault (List Operator × List Fraction)
  | [], values => .ok ([], values)
  | p :: ps, values =>
    if o.yieldsTo p then
      match apply settings p values with
      | .error fault => .error fault
      | .ok values => unwind settings o ps values
    else .ok (p :: ps, values)

def operator (settings : Settings) (m : Machine) (o : Operator) : Except EvalFault Machine :=
  (unwind settings o m.operators m.values).map fun (operators, values) =>
    { m with operators := o :: operators, values := values }

def operand (m : Machine) (x : Fraction) : Machine :=
  ⟨(if m.negated then -x else x) :: m.values, m.operators, false⟩

/-- Applies all the waiting operators. -/
def drain (settings : Settings) :
    List Operator → List Fraction → Except EvalFault (List Fraction)
  | [], values => .ok values
  | o :: os, values =>
    match apply settings o values with
    | .error fault => .error fault
    | .ok values => drain settings os values

def finish (settings : Settings) (m : Machine) : Except EvalFault Fraction :=
  match drain settings m.operators m.values with
  | .error fault => .error fault
  | .ok [x] => .ok x.reduce
  | .ok _ => .error .nothingToEvaluate

end Machine

mutual
def run (settings : Settings) (context : Context) :
    List Element → Machine → Except EvalFault Machine
  | [], m => .ok m
  | .negate :: xs, m => run settings context xs { m with negated := !m.negated }
  | .operator o :: xs, m =>
    match m.operator settings o with
    | .error fault => .error fault
    | .ok m => run settings context xs m
  | .number x :: xs, m => run settings context xs (m.operand x)
  | .var name :: xs, m =>
    match context name with
    | none => .error (.unknownVariable name)
    | some x => run settings context xs (m.operand x)
  | .call f arguments :: xs, m =>
    match argumentValues settings context arguments with
    | .error fault => .error fault
    | .ok values =>
      match f.operation values with
      | .error fault => .error (.function f.name fault)
      | .ok x => run settings context xs (m.operand x)
  | .group body :: xs, m =>
    match run settings context body .start with
    | .error fault => .error fault
    | .ok inner =>
      match inner.finish settings with
      | .error fault => .error fault
      | .ok x => run settings context xs (m.operand x)
def argumentValues (settings : Settings) (context : Context) :
    List (List Element) → Except EvalFault (List Fraction)
  | [] => .ok []
  | a :: as =>
    match run settings context a .start with
    | .error fault => .error fault
    | .ok m =>
      match m.finish settings with
      | .error fault => .error fault
      | .ok x => (argumentValues settings context as).map (x :: ·)
end

end Evaluation

/-- The value of a formula, in lowest terms. -/
def Formula.evaluate (settings : Settings) (context : Context) (f : Formula) :
    Except EvalFault Fraction :=
  match Evaluation.run settings context f .start with
  | .error fault => .error fault
  | .ok m => m.finish settings

end Reckon
