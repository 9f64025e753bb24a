import Reckon.Settings
import Reckon.Text.Basic

/-!
# Marks under a text

A drawing shows a line of text and, below it, a `^` under each marked character. Tabs are kept in
the line of marks, so both lines stay aligned however wide a tab is.
-/

namespace Reckon

/-- The line of marks for `line`, before trailing blanks are cut. -/
def caretCells (line : List Char) (positions : List Nat) : List Char :=
  line.zipIdx.map fun p =>
    if positions.contains p.2 then '^' else if p.1 = '\t' then '\t' else ' '

/-- The line of marks for `line`, up to the last mark. -/
def caretLine (line : List Char) (positions : List Nat) : List Char :=
  ((caretCells line positions).reverse.dropWhile isBlank).reverse

/-- The largest position, written after the marks. -/
def caretIndex (positions : List Nat) : String :=
  match positions.max? with
  | none => ""
  | some last => " " ++ last.repr

/-- A labelled line of text above its line of marks. -/
def caretView (label : String) (line : List Char) (positions : List Nat) (showIndex : Bool) :
    String :=
  let indent := List.replicate (label.length + 2) ' '
  label ++ ": " ++ String.ofList line ++ "\n" ++ String.ofList indent ++
    String.ofList (caretLine line positions) ++ (if showIndex then caretIndex positions else "")

namespace Text

/-- The offsets on the line of some positions of the stripped text. -/
def linePositions (t : Text) (positions : List Nat) : List Nat :=
  positions.filterMap t.linePosition

/-- The views of a text, the line as it was typed first. When stripping changed nothing one view is
enough. -/
def views (t : Text) (mode : CaretMode) (showIndex : Bool) (positions : List Nat) : List String :=
  let mode := if t.line = t.stripped then .stripped else mode
  let upper := caretView "original" t.line (t.linePositions positions) showIndex
  let lower := caretView "stripped" t.stripped positions showIndex
  match mode with
  | .line => [upper]
  | .stripped => [lower]
  | .both => [upper, lower]

/-- The drawing of a text with its `positions` marked. Fails on the smallest position outside. -/
def draw (t : Text) (mode : CaretMode) (showIndex : Bool) (positions : List Nat) :
    Except ParseFault String :=
  match (positions.filter (t.length ≤ ·)).min? with
  | some position => .error (.caretOutOfRange position t.length)
  | none => .ok ("\n".intercalate (t.views mode showIndex positions))

/-- The drawing that goes with a cause, empty if it could not be drawn. -/
def diagnostic (t : Text) (settings : Settings) (positions : List Nat) : String :=
  match t.draw settings.caretMode settings.showIndex positions with
  | .ok drawing => drawing
  | .error _ => ""

/-- The report of a cause found in `t`. -/
def report {Cause : Type} (t : Text) (settings : Settings) (carets : Cause → Option (List Nat))
    (cause : Cause) : Report Cause :=
  ⟨cause, (carets cause).map (t.diagnostic settings)⟩

end Text

end Reckon
