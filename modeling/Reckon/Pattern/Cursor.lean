import Reckon.Pattern.Basic

/-!
# Places in a text

A cursor stands between two characters of a text. On its way it marks where it entered and where it
left the capture groups of a pattern.
-/

namespace Reckon

/-- From the first character of a stretch to behind its last one. -/
structure Span where
  start : Nat
  stop : Nat
deriving DecidableEq, Repr

namespace Span

def length (s : Span) : Nat := s.stop - s.start

def of (s : Span) (text : List Char) : List Char := (text.drop s.start).take s.length

end Span

/-- An end of a capture group. -/
inductive Mark
  | opened (index : Nat)
  | closed (index : Nat)
deriving DecidableEq, Repr

/-- A place in a text: what is left, how much was read, and where the ends of groups were passed,
the latest first. -/
structure Cursor where
  rest : List Char
  pos : Nat
  marks : List (Mark × Nat)
deriving DecidableEq, Repr

namespace Cursor

def ofText (text : List Char) : Cursor := ⟨text, 0, []⟩

def next (c : Cursor) (s : CharSet) : Option Cursor :=
  match c.rest with
  | [] => none
  | x :: xs => if s.mem x then some ⟨xs, c.pos + 1, c.marks⟩ else none

def mark (c : Cursor) (m : Mark) : Cursor := { c with marks := (m, c.pos) :: c.marks }

/-- What group `i` captured last. A group is left before it is entered again, so at the end of a
match the latest marks of its two ends belong together. -/
def group? (c : Cursor) (i : Nat) : Option Span := do
  return ⟨← c.marks.lookup (.opened i), ← c.marks.lookup (.closed i)⟩

end Cursor

end Reckon
