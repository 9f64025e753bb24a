import Reckon.Decimal
import Reckon.Fraction.Basic
import Std.Data.TreeMap

/-!
# The exact decimal form

A fraction is written out in full: the digits after the point, with a block that repeats for ever
between braces and followed by `R`, as in `0.1{6}R`. The digits come from long division. As a
remainder returns, so do the digits after it; the first one to return marks the repeating block.

Digits before the block do not end in `0`. Where long division leaves one there, the block is turned
until they end in another digit, as in `0.03{3}R` for `1/30`.
-/

namespace Reckon

/-- Digits after the point: `plain` once, then `cycle` for ever. A terminating expansion has no
`cycle`. -/
structure Expansion where
  plain : List Nat
  cycle : List Nat
deriving DecidableEq, Repr

namespace Expansion

/-- Long division of the remainder `r` by `d`. `seen` holds where each remainder was met, `count`
how many digits there are so far and `digits` the digits themselves, the latest first. The answer is
the digits with the place where they start to repeat. -/
def divide (d : Nat) : (fuel r : Nat) → Std.TreeMap Nat Nat → (count : Nat) → (digits : List Nat) →
    List Nat × Option Nat
  | 0, _, _, _, digits => (digits.reverse, none)
  | fuel + 1, r, seen, count, digits =>
    if r = 0 then (digits.reverse, none)
    else
      match seen[r]? with
      | some start => (digits.reverse, some start)
      | none => divide d fuel (10 * r % d) (seen.insert r count) (count + 1) (10 * r / d :: digits)

/-- Turns the cycle while the digits before it end in `0`. The first list holds those digits, the
second the turned part of the cycle, both with the latest first. -/
def settle : List Nat → List Nat → List Nat → Expansion
  | 0 :: plain, turned, digit :: cycle => settle (digit :: 0 :: plain) (digit :: turned) cycle
  | plain, turned, cycle => ⟨plain.reverse, cycle ++ turned.reverse⟩

/-- The expansion of `r / d` for `r < d`. Below `d` there are `d` remainders, so `d` passes do. -/
def ofRemainder (r d : Nat) : Expansion :=
  match divide d d r ∅ 0 [] with
  | (digits, none) => ⟨digits, []⟩
  | (digits, some start) => settle (digits.take start).reverse [] (digits.drop start)

end Expansion

namespace Fraction

def expansion (x : Fraction) : Expansion :=
  let y := x.reduce
  .ofRemainder (y.num.natAbs % y.den) y.den

def fractionChars (e : Expansion) : List Char :=
  if e.plain.isEmpty && e.cycle.isEmpty then []
  else
    '.' :: e.plain.map Nat.digitChar ++
      (if e.cycle.isEmpty then [] else '{' :: e.cycle.map Nat.digitChar ++ ['}', 'R'])

def exactChars (x : Fraction) : List Char :=
  let y := x.reduce
  (if y.isNegative then ['-'] else []) ++ decimalChars (y.num.natAbs / y.den) ++
    fractionChars x.expansion

def exact (x : Fraction) : String := String.ofList x.exactChars

end Fraction

end Reckon
