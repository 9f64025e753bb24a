import Reckon.Fraction.Exact

/-!
# Writing the exact form pass by pass

`Expansion` has the digits of a fraction, found in as many passes as there can be remainders, and a
block that is turned once around at most. Two loops write the same text with no such limits. The
first one divides for as long as it meets new remainders, the second one turns the block for as long
as the digits before it end in `0`.
-/

namespace Reckon

/-- The state of a loop after `n` passes from `s`. The loop is left where a pass has no answer. -/
def passes {σ : Type} (pass : σ → Option σ) : (n : Nat) → (s : σ) → Option σ
  | 0, s => some s
  | n + 1, s => (passes pass n s).bind pass

/-- A block that is turned, behind the digits that stand before it. -/
structure Turning where
  plain : List Char
  cycle : List Char
deriving DecidableEq, Repr

namespace Turning

/-- Where the digits before the block end in `0`, the first digit of the block joins them and goes to
the end of the block. An empty block has no digit to give. -/
def pass (s : Turning) : Option Turning :=
  if s.plain.getLast? = some '0' then
    match s.cycle with
    | [] => none
    | c :: cycle => some ⟨s.plain ++ [c], cycle ++ [c]⟩
  else none

/-- The block after `n` turns. -/
def after (s : Turning) (n : Nat) : Option Turning := passes pass n s

end Turning

/-- A long division at work: what is left to divide, the digits so far, and how many of them there
were when a remainder was recorded. -/
structure Division where
  rest : Nat
  seen : Std.TreeMap Nat Nat
  digits : List Char

namespace Division

/-- The division of what a fraction has behind the point. -/
def start (x : Fraction) : Division :=
  let y := x.reduce
  ⟨y.num.natAbs % y.den, ∅, []⟩

/-- Records the remainder and writes down the next quotient, whatever its size. The division is over
if nothing is left, or a remainder that was recorded before. -/
def pass (d : Nat) (s : Division) : Option Division :=
  if s.rest = 0 then none
  else
    match s.seen[s.rest]? with
    | some _ => none
    | none => some {
        rest := 10 * s.rest % d
        seen := s.seen.insert s.rest s.digits.length
        digits := s.digits ++ decimalChars (10 * s.rest / d) }

/-- The division of a fraction after `n` passes. -/
def after (x : Fraction) (n : Nat) : Option Division :=
  passes (pass x.reduce.den) n (start x)

/-- The block that a division has come to: the digits since what is left was recorded. -/
def block (s : Division) : Option Turning :=
  s.seen[s.rest]?.map fun start => ⟨s.digits.take start, s.digits.drop start⟩

end Division

end Reckon
