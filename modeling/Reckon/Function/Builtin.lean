import Reckon.Fraction.Exact
import Reckon.Function.Basic

/-!
# The built-in functions
-/

namespace Reckon.Builtin

/-- An operation on the first argument. Further ones do not matter. -/
def onFirst (f : Fraction → Except ArithmeticFault Fraction) : Operation
  | [] => .error (.domain "missing argument")
  | x :: _ => f x

def sum : Operation := fun xs => .ok (xs.foldl (· + ·) Fraction.zero).reduce

def product : Operation := fun xs => .ok (xs.foldl (· * ·) Fraction.one).reduce

/-- An operation that folds over its arguments, of which there must be one. -/
def overAll (f : Fraction → Fraction → Fraction) : Operation
  | [] => .error (.domain "missing argument")
  | x :: xs => .ok (xs.foldl f x)

/-- The least argument, of equal ones the first. -/
def min : Operation := overAll fun x y => if Fraction.compare y x = .lt then y else x

/-- The greatest argument, of equal ones the last. -/
def max : Operation := overAll fun x y => if Fraction.compare y x = .lt then x else y

def abs : Operation := onFirst fun x => .ok x.abs

def negate : Operation := onFirst fun x => .ok (-x)

def reciprocal : Operation := onFirst Fraction.reciprocal

def floor : Operation := onFirst fun x => .ok x.floor

def ceil : Operation := onFirst fun x => .ok x.ceil

/-- The largest argument of `faculty`. -/
def maxFaculty : Nat := 1000

def factorial : Nat → Nat
  | 0 => 1
  | n + 1 => factorial n * (n + 1)

def faculty : Operation :=
  onFirst fun x =>
    if x.isWhole && 0 ≤ x.trunc && x.trunc ≤ maxFaculty then
      .ok (.ofInt (factorial x.trunc.toNat))
    else
      .error (.domain ("faculty needs an integer between 0 and " ++ maxFaculty.repr ++ ", got " ++
        x.exact))

/-- What is left of the first argument after whole multiples of the second, with the sign of the
first. -/
def mod : Operation
  | [x, y] =>
    match x.div y with
    | .error fault => .error fault
    | .ok q => .ok (x - y * .ofInt q.trunc).reduce
  | _ => .error (.domain "mod needs two arguments")

def table : FunctionTable :=
  FunctionTable.empty
    |>.register "sum" (.atLeast 1) sum
    |>.register "product" (.atLeast 1) product
    |>.register "min" (.atLeast 1) min
    |>.register "max" (.atLeast 1) max
    |>.register "abs" (.exactly 1) abs
    |>.register "negate" (.exactly 1) negate
    |>.register "reciprocal" (.exactly 1) reciprocal
    |>.register "floor" (.exactly 1) floor
    |>.register "ceil" (.exactly 1) ceil
    |>.register "faculty" (.exactly 1) faculty
    |>.register "mod" (.exactly 2) mod

end Reckon.Builtin
