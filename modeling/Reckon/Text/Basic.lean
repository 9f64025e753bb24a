import Reckon.Fault
import Reckon.Text.Blank

/-!
# The input text

An expression is written on one line without gaps, whatever the layout of the input. `Text` keeps
the input on one line as it was typed (`line`), the characters of it that matter (`stripped`) and,
for each of them, where on the line it stands (`offsets`).
-/

namespace Reckon

structure Text where
  line : List Char
  stripped : List Char
  offsets : List Nat
deriving DecidableEq, Repr

namespace Text

/-- The characters of `line` that are no gaps, each with its offset. -/
def marked (line : List Char) : List (Char × Nat) :=
  line.zipIdx.filter fun p => !isGap p.1

/-- The text of a line, unless the line is blank. A line can hold more kinds of blanks than gaps, so
both "all blank" and "nothing left" have to be asked. -/
def ofLine (line : List Char) : Except ParseFault Text :=
  if line.all isBlank then .error .blankInput
  else
    let kept := marked line
    if kept.isEmpty then .error .blankInput
    else .ok ⟨line, kept.map Prod.fst, kept.map Prod.snd⟩

def ofRaw (raw : String) : Except ParseFault Text :=
  ofLine (raw.toList.filter fun c => !isLineBreak c)

def length (t : Text) : Nat := t.offsets.length

/-- Where on the line the character at `position` of the stripped text stands. -/
def linePosition (t : Text) (position : Nat) : Option Nat := t.offsets[position]?

/-- The positions in the stripped text of any of `reserved`. -/
def positionsOf (t : Text) (reserved : List Char) : List Nat :=
  (t.stripped.zipIdx.filter fun p => reserved.contains p.1).map Prod.snd

end Text

end Reckon
