import Reckon.Grammar.Number
import Reckon.Symbol

/-!
# The content of an expression

Content is read as one operand, possibly negated, and then as pairs of an operator and such an
operand, for as long as a pair can be found. Each step takes the preferred match of the grammar at
the place that was reached. What stands behind the last step is left over.
-/

namespace Reckon

/-- An operand as it is written. -/
inductive Operand
  | placeholder
  /-- A name with some groups of arguments behind it. -/
  | call (name : List Char) (groups : Nat)
  | var (name : List Char)
  /-- A literal with its parts, if it has one of the forms of a number. -/
  | number (literal : List Char) (parts : Option NumberParts)
deriving DecidableEq, Repr

/-- A step through the content. -/
structure Step where
  /-- The operator before the operand, which the first operand does not have. -/
  operator : Option Operator
  negated : Bool
  operand : Operand
  offset : Nat
deriving DecidableEq, Repr

/-- The steps through the content and the offset behind the last one. -/
structure Reading where
  steps : List Step
  stop : Nat
deriving DecidableEq, Repr

namespace Step

/-- The operand that a match in `text` captured. `parts` are the groups of an operand that may be
negated. -/
def operandOf (m : Cursor) (text : List Char) (parts : List Part) : Except Defect Operand :=
  if (m.part? parts [.operand, .subExpression]).isSome then .ok .placeholder
  else
    match m.part? parts [.operand, .functionCall, .functionName],
        m.part? parts [.operand, .variableName], Part.find? [.operand, .number] parts with
    | some name, _, _ =>
      let arguments := m.part? parts [.operand, .functionCall, .functionArguments]
      .ok (.call (name.of text) ((arguments.map Span.length).getD 0))
    | none, some name, _ => .ok (.var (name.of text))
    | none, none, some number =>
      let literal := ((m.group? number.group).map fun s => s.of text).getD []
      .ok (.number literal (NumberParts.ofMatch m text number.children))
    | none, none, none => .error .missingOperand

/-- The step of a match at `offset`, where `text` is the content from there on. -/
def ofMatch (m : Cursor) (text : List Char) (parts : List Part) (offset : Nat)
    (operator : Option Operator) : Except Defect Step :=
  match operandOf m text parts with
  | .error d => .error d
  | .ok operand =>
    let start := ((m.part? parts [.operand]).map Span.start).getD 0
    .ok ⟨operator, (m.part? parts [.negation]).isSome, operand, offset + start⟩

def ofBinaryMatch (m : Cursor) (text : List Char) (offset : Nat) : Except Defect Step :=
  let parts := Form.binaryOperation.component.parts
  let operator := do
    let span ← m.part? parts [.binaryOperator]
    let symbol ← (span.of text).head?
    Operator.ofSymbol symbol
  match operator, Part.find? [.unaryOperation] parts with
  | some o, some unary => ofMatch m text unary.children offset (some o)
  | none, _ => .error .missingOperator
  | _, none => .error .missingOperand

end Step

namespace Reading

/-- Reads pairs of an operator and an operand from `offset` on, where `rest` is the content from
there. Each pair has a character, so there are at most as many as characters. -/
def pairs : (fuel : Nat) → (rest : List Char) → (offset : Nat) → Except Defect Reading
  | 0, _, offset => .ok ⟨[], offset⟩
  | fuel + 1, rest, offset =>
    match Form.binaryOperation.component.matchStart rest with
    | none => .ok ⟨[], offset⟩
    | some m =>
      match Step.ofBinaryMatch m rest offset, pairs fuel (rest.drop m.pos) (offset + m.pos) with
      | .ok step, .ok later => .ok ⟨step :: later.steps, later.stop⟩
      | .error d, _ | .ok _, .error d => .error d

/-- Reads content; there is no reading if it does not start with an operand. -/
def ofContent (content : List Char) : Except Defect (Option Reading) :=
  let unary := Form.unaryOperation.component
  match unary.matchStart content with
  | none => .ok none
  | some m =>
    match Step.ofMatch m content unary.parts 0 none,
        pairs content.length (content.drop m.pos) m.pos with
    | .ok step, .ok later => .ok (some ⟨step :: later.steps, later.stop⟩)
    | .error d, _ | .ok _, .error d => .error d

section
variable {fuel offset : Nat} {content rest : List Char} {m : Cursor} {s : Step} {later : Reading}

theorem pairs_none (hm : Form.binaryOperation.component.matchStart rest = none) :
    pairs (fuel + 1) rest offset = .ok ⟨[], offset⟩ := by
  rw [pairs, hm]

theorem pairs_some (hm : Form.binaryOperation.component.matchStart rest = some m)
    (hs : Step.ofBinaryMatch m rest offset = .ok s)
    (hlater : pairs fuel (rest.drop m.pos) (offset + m.pos) = .ok later) :
    pairs (fuel + 1) rest offset = .ok ⟨s :: later.steps, later.stop⟩ := by
  rw [pairs, hm]
  simp only [hs, hlater]

theorem ofContent_none (hm : Form.unaryOperation.component.matchStart content = none) :
    ofContent content = .ok none := by
  rw [ofContent, hm]

theorem ofContent_some (hm : Form.unaryOperation.component.matchStart content = some m)
    (hs : Step.ofMatch m content Form.unaryOperation.component.parts 0 none = .ok s)
    (hlater : pairs content.length (content.drop m.pos) m.pos = .ok later) :
    ofContent content = .ok (some ⟨s :: later.steps, later.stop⟩) := by
  rw [ofContent, hm]
  simp only [hs, hlater]

end

end Reading

end Reckon
