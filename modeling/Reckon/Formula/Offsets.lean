import Reckon.Formula.Content
import Reckon.Text.Bytes

/-!
# Reading content by offsets in bytes

Matches in the content are found by offsets in bytes: each search starts at a cut behind the last
match. Only what is reported, or kept of a step, is an offset in characters.
-/

namespace Reckon

/-- A step that was read at the start of `rest`, which stands behind `base` bytes of the content. -/
def Step.behind (s : Step) (content rest : List Char) (base : Nat) : Except Defect Step :=
  (charOffset content (base + byteLength (rest.take s.offset))).map fun n => { s with offset := n }

namespace Reading

/-- Reads pairs of an operator and an operand from an offset on. The offset where reading stops counts
bytes. -/
def bytePairs (content : List Char) : (fuel offset : Nat) → Except Defect Reading
  | 0, offset => .ok ⟨[], offset⟩
  | fuel + 1, offset =>
    if offset < byteLength content then do
      let (_, rest) ← cutAt content offset
      match Form.binaryOperation.component.matchStart rest with
      | none => return ⟨[], offset⟩
      | some m =>
        let step ← Step.ofBinaryMatch m rest 0
        let step ← step.behind content rest offset
        let later ← bytePairs content fuel (offset + byteLength (rest.take m.pos))
        return ⟨step :: later.steps, later.stop⟩
    else .ok ⟨[], offset⟩

/-- Reads content, as `Reading.ofContent` does by offsets in characters. -/
def ofBytes (content : List Char) : Except Defect (Option Reading) :=
  let unary := Form.unaryOperation.component
  match unary.matchStart content with
  | none => .ok none
  | some m => do
    let step ← Step.ofMatch m content unary.parts 0 none
    let step ← step.behind content content 0
    let later ← bytePairs content content.length (byteLength (content.take m.pos))
    let stop ← charOffset content later.stop
    return some ⟨step :: later.steps, stop⟩

end Reading

end Reckon
