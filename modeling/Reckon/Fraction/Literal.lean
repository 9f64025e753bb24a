import Reckon.Decimal
import Reckon.Fraction.Basic

/-!
# Fractions from the parts of a literal

A number literal has a signed integer part and up to three more: fraction digits, a block of digits
that repeats, and a decimal exponent. With `n` fraction digits and a block of `k` digits the value
is the difference of the integers written with and without the block, over `10 ^ (n + k) - 10 ^ n`.
-/

namespace Reckon

/-- The largest power of ten a literal may need. -/
def maxLiteralExponent : Nat := 100000

def digitValue (c : Char) : Nat := c.toNat - '0'.toNat

/-- Reads a run of digits, from the highest down. -/
def digitsValue (ds : List Char) : Nat := ds.foldl (fun n c => 10 * n + digitValue c) 0

/-- Is it one of the ten ASCII digits? -/
def isDigit (c : Char) : Bool := '0' ≤ c && c ≤ '9'

/-- Reads a natural number: a digit, then digits and underscores, where underscores do not count. -/
def readNatural : List Char → Option Nat
  | [] => none
  | c :: cs =>
    if isDigit c && cs.all (fun d => isDigit d || d == '_') then
      some (digitsValue (c :: cs.filter isDigit))
    else none

/-- Reads an integer: a natural number after at most one sign. -/
def readInteger : List Char → Option Int
  | [] => none
  | c :: cs =>
    if c = '-' then (readNatural cs).map fun n => -(n : Int)
    else if c = '+' then (readNatural cs).map fun n => (n : Int)
    else (readNatural (c :: cs)).map fun n => (n : Int)

def readDigits : List Char → Option Nat
  | [] => none
  | c :: cs => if (c :: cs).all isDigit then some (digitsValue (c :: cs)) else none

/-- The size of the range of a signed 64 bit word to either side of zero. -/
def wordRange : Nat := 9223372036854775808

/-- Reads an exponent: digits after at most one sign, within the range of a signed 64 bit word. -/
def readExponent : List Char → Option Int
  | [] => none
  | c :: cs =>
    if c = '-' then (readDigits cs).bind fun n => if n ≤ wordRange then some (-(n : Int)) else none
    else
      (readDigits (if c = '+' then cs else c :: cs)).bind fun n =>
        if n < wordRange then some (n : Int) else none

/-- May a literal need the power `e` of ten? -/
def checkTenPower (e : Nat) : Except ArithmeticFault Unit :=
  if maxLiteralExponent < e then
    .error (.domain ("exponent " ++ e.repr ++ " exceeds " ++ maxLiteralExponent.repr))
  else .ok ()

def spelledInteger (cs : List Char) : Except ArithmeticFault Int :=
  match readInteger cs with
  | some n => .ok n
  | none => .error (.domain ("'" ++ String.ofList cs ++ "' is not an integer"))

def spelledExponent (cs : List Char) : Except ArithmeticFault Int :=
  match readExponent cs with
  | some e => .ok e
  | none => .error (.domain ("invalid exponent '" ++ String.ofList cs ++ "'"))

namespace Fraction

/-- The value of the digits, without the exponent. -/
def ofDigits (integer plain repeating : List Char) : Except ArithmeticFault Fraction := do
  let head ← spelledInteger (integer ++ plain)
  if h : repeating = [] then
    checkTenPower plain.length
    return ⟨head, tenPow plain.length, tenPow_pos _⟩
  else
    let full ← spelledInteger (integer ++ plain ++ repeating)
    checkTenPower (plain.length + repeating.length)
    checkTenPower plain.length
    return ⟨full - head, tenPow (plain.length + repeating.length) - tenPow plain.length,
      Nat.sub_pos_of_lt (tenPow_lt (Nat.lt_add_of_pos_right (List.length_pos_iff.mpr h)))⟩

/-- A value with its decimal point moved by `e` places. -/
def scale (x : Fraction) (e : Int) : Except ArithmeticFault Fraction := do
  checkTenPower e.natAbs
  if 0 ≤ e then return ⟨x.num * tenPow e.natAbs, x.den, x.den_pos⟩
  else return ⟨x.num, x.den * tenPow e.natAbs, Nat.mul_pos x.den_pos (tenPow_pos _)⟩

/-- The value of the parts of a literal, in lowest terms. -/
def ofParts (integer plain repeating : List Char) (exponent : Option (List Char)) :
    Except ArithmeticFault Fraction := do
  let value ← ofDigits integer plain repeating
  match exponent with
  | none => return value.reduce
  | some text =>
    let e ← spelledExponent text
    return (← value.scale e).reduce

end Fraction

end Reckon
