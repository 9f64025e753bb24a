import Reckon.Fault

/-!
# Exact fractions

A fraction is a pair of integers with a positive denominator. Pairs are kept as they come out of the
arithmetic: `reduce` is asked for where lowest terms matter, and comparison is by cross
multiplication, so it does not see a common factor.
-/

namespace Reckon

structure Fraction where
  num : Int
  den : Nat
  den_pos : 0 < den
deriving DecidableEq, Repr

namespace Fraction

def ofInt (n : Int) : Fraction := ⟨n, 1, Nat.one_pos⟩

def zero : Fraction := ofInt 0

def one : Fraction := ofInt 1

instance : Inhabited Fraction := ⟨zero⟩

/-- The fraction of two integers, its sign on the numerator. -/
def ofInts (n d : Int) : Except ArithmeticFault Fraction :=
  if h : d = 0 then .error .zeroDenominator
  else .ok ⟨if d < 0 then -n else n, d.natAbs, Int.natAbs_pos.mpr h⟩

def reduce (x : Fraction) : Fraction :=
  let g := x.num.natAbs.gcd x.den
  if g = 1 then x
  else ⟨x.num / g, x.den / g,
    Nat.div_pos (Nat.gcd_le_right _ x.den_pos) (Nat.gcd_pos_of_pos_right _ x.den_pos)⟩

def isZero (x : Fraction) : Bool := x.num == 0

def isWhole (x : Fraction) : Bool := x.num % x.den == 0

def isNegative (x : Fraction) : Bool := x.num < 0

def sign (x : Fraction) : Int := x.num.sign

/-! ### Arithmetic -/

def add (x y : Fraction) : Fraction :=
  ⟨x.num * y.den + y.num * x.den, x.den * y.den, Nat.mul_pos x.den_pos y.den_pos⟩

def sub (x y : Fraction) : Fraction :=
  ⟨x.num * y.den - y.num * x.den, x.den * y.den, Nat.mul_pos x.den_pos y.den_pos⟩

def mul (x y : Fraction) : Fraction :=
  ⟨x.num * y.num, x.den * y.den, Nat.mul_pos x.den_pos y.den_pos⟩

def neg (x : Fraction) : Fraction := ⟨-x.num, x.den, x.den_pos⟩

def abs (x : Fraction) : Fraction := ⟨x.num.natAbs, x.den, x.den_pos⟩

instance : Add Fraction := ⟨add⟩
instance : Sub Fraction := ⟨sub⟩
instance : Mul Fraction := ⟨mul⟩
instance : Neg Fraction := ⟨neg⟩

def trunc (x : Fraction) : Int := x.num.tdiv x.den

/-- The greatest whole number not above. -/
def floor (x : Fraction) : Fraction := ofInt (x.num.fdiv x.den)

/-- The least whole number not below. -/
def ceil (x : Fraction) : Fraction := ofInt (-(-x.num).fdiv x.den)

def reciprocal (x : Fraction) : Except ArithmeticFault Fraction :=
  if h : x.num = 0 then .error .divideByZero
  else .ok ⟨if x.num < 0 then -x.den else x.den, x.num.natAbs, Int.natAbs_pos.mpr h⟩

/-- Division is multiplication by the reciprocal. -/
def div (x y : Fraction) : Except ArithmeticFault Fraction :=
  match y.reciprocal with
  | .error fault => .error fault
  | .ok r => .ok (x * r)

/-- The largest absolute exponent `pow` accepts. -/
def maxPower : Nat := 4294967295

/-- `x` to the power of a natural number, numerator and denominator apart. -/
def npow (x : Fraction) (n : Nat) : Fraction :=
  ⟨x.num.pow n, x.den.pow n, Nat.pow_pos x.den_pos⟩

/-- `x` to a whole power. A negative power is a power of the reciprocal as it stands, any other one
a power of the lowest terms. -/
def pow (x : Fraction) (e : Int) : Except ArithmeticFault Fraction :=
  if maxPower < e.natAbs then .error (.domain ("exponent " ++ e.repr ++ " is too large"))
  else if e < 0 then
    match x.reciprocal with
    | .error fault => .error fault
    | .ok r => .ok (r.npow e.natAbs)
  else .ok (x.reduce.npow e.natAbs)

/-! ### Comparison -/

protected def compare (x y : Fraction) : Ordering :=
  Ord.compare (x.num * y.den) (y.num * x.den)

/-- Do both denote the same number? -/
def same (x y : Fraction) : Bool := x.num * y.den == y.num * x.den

instance : Ord Fraction := ⟨Fraction.compare⟩

/-- What a fraction is hashed by: its lowest terms. -/
def key (x : Fraction) : Int × Nat := (x.reduce.num, x.reduce.den)

/-- The state of a hasher, which takes one integer at a time, behind a fraction. -/
def hashInto {σ : Type} (feed : σ → Int → σ) (s : σ) (x : Fraction) : σ :=
  feed (feed s x.key.1) x.key.2

end Fraction

end Reckon
