/-!
# Settings

What the user may choose: how a drawing of the input looks, and how much a calculation may cost.
-/

namespace Reckon

/-- Which views of the input a drawing shows. -/
inductive CaretMode
  | line
  | stripped
  | both
deriving DecidableEq, Repr

/-- The exponent limit is a 32 bit word and the size limit a 64 bit word, so no choice of theirs
goes beyond what a power can be computed for. -/
structure Settings where
  caretMode : CaretMode := .both
  /-- Write the last marked position after the marks. -/
  showIndex : Bool := true
  /-- The largest absolute exponent of a power. -/
  maxExponent : UInt32 := 10000
  /-- The largest size of a power, in bits. -/
  maxResultBits : UInt64 := 4194304
  /-- The deepest nesting of groups. -/
  maxDepth : Nat := 256
deriving DecidableEq, Repr

end Reckon
