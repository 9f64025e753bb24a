import Reckon.Fault
import Reckon.Pattern.Cursor

/-!
# Offsets in bytes

A text is kept in UTF-8 and cut at offsets that count its bytes. An offset inside of a character is no
place to cut at, and neither is one beyond the text.
-/

namespace Reckon

/-- The number of bytes of a text. -/
def byteLength : List Char → Nat
  | [] => 0
  | c :: cs => c.utf8Size + byteLength cs

/-- What stands before and behind the first bytes of a text, if no character is split. -/
def cutBytes : List Char → Nat → Option (List Char × List Char)
  | text, 0 => some ([], text)
  | [], _ + 1 => none
  | c :: cs, n + 1 =>
    if c.utf8Size ≤ n + 1 then (cutBytes cs (n + 1 - c.utf8Size)).map fun p => (c :: p.1, p.2)
    else none

/-- Cuts a text in two. -/
def cutAt (text : List Char) (offset : Nat) : Except Defect (List Char × List Char) :=
  match cutBytes text offset with
  | none => .error (.splitCharacter offset)
  | some p => .ok p

/-- What stands from `start` up to `stop`. -/
def sliceBytes (text : List Char) (start stop : Nat) : Except Defect (List Char) := do
  let (upto, _) ← cutAt text stop
  let (_, slice) ← cutAt upto start
  return slice

/-- The number of characters before an offset. -/
def charOffset (text : List Char) (offset : Nat) : Except Defect Nat :=
  (cutAt text offset).map fun p => p.1.length

/-- A stretch of `text`, in bytes. -/
def Span.bytes (text : List Char) (s : Span) : Span :=
  ⟨byteLength (text.take s.start), byteLength (text.take s.stop)⟩

end Reckon
