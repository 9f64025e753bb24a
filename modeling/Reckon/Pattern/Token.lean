import Reckon.Pattern.Matching

/-!
# The matches in a text

A text is searched from left to right. Where a match starts, its characters are taken out of the
search, and an empty match right behind another one does not count.
-/

namespace Reckon.Pattern

/-- The matches from a place on, if a match at a place ends at `stop`. The next `skip` characters
belong to a match that ends at `last`. -/
def tokensFrom (stop : (rest : List Char) → (pos : Nat) → Option Nat) :
    (rest : List Char) → (pos skip : Nat) → (last : Option Nat) → List Span
  | [], pos, _, last =>
    match stop [] pos with
    | none => []
    | some _ => if last = some pos then [] else [⟨pos, pos⟩]
  | _ :: xs, pos, skip + 1, last => tokensFrom stop xs (pos + 1) skip last
  | x :: xs, pos, 0, last =>
    match stop (x :: xs) pos with
    | none => tokensFrom stop xs (pos + 1) 0 last
    | some e =>
      if pos < e then ⟨pos, e⟩ :: tokensFrom stop xs (pos + 1) (e - pos - 1) (some e)
      else if last = some pos then tokensFrom stop xs (pos + 1) 0 last
      else ⟨pos, pos⟩ :: tokensFrom stop xs (pos + 1) 0 (some pos)

/-- Where the preferred match at a place behind `pos` characters ends. -/
def stopAt (p : Pattern) (rest : List Char) (pos : Nat) : Option Nat :=
  (p.find (fun _ => true) ⟨rest, pos, []⟩).map Cursor.pos

/-- The matches in `text`, left to right. -/
def tokens (p : Pattern) (text : List Char) : List Span := tokensFrom p.stopAt text 0 0 none

end Reckon.Pattern
