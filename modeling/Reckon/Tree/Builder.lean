import Reckon.Settings
import Reckon.Text.Caret
import Reckon.Tree.Arena

/-!
# Building an arena

The stripped text is read once, and a node gets its place when reading comes to it: an expression
at its first character or opening bracket, a group at its opening bracket. Nodes are linked when
they end. A comma or a closing bracket adds the expression before it to the innermost open group, a
closing bracket then adds the group to the expression around it.
-/

namespace Reckon

namespace ExpressionNode

def new (position : Nat) : ExpressionNode := ⟨[], [], position, position, .building⟩

/-- Can it be extended at `position`? -/
def isAppendable (e : ExpressionNode) (position : Nat) : Bool :=
  e.state == .building && position == e.stop

def append (e : ExpressionNode) (position : Nat) (text : List Char) :
    Except ParseFault ExpressionNode :=
  if e.isAppendable position then
    .ok { e with content := e.content ++ text, stop := e.stop + text.length }
  else .error (.defect (.misplacedAppend position e.stop))

/-- Adds the group at the place `group`, which was read from `start` to `stop`. -/
def appendGroup (e : ExpressionNode) (group start stop : Nat) : Except ParseFault ExpressionNode :=
  if e.isAppendable start then
    .ok { e with
      content := e.content ++ [placeholder], groups := e.groups ++ [group], stop := stop + 1 }
  else .error (.defect (.misplacedAppend start e.stop))

def finalize (e : ExpressionNode) : ExpressionNode := { e with state := .finalized }

end ExpressionNode

namespace GroupNode

def new (b : Bracket) (position : Nat) : GroupNode :=
  ⟨b.opening, b.closing, none, position, none, [], .building⟩

def addChild (g : GroupNode) (expression : Nat) : GroupNode :=
  { g with children := g.children ++ [expression] }

def finalize (g : GroupNode) (token : Char) (position : Nat) : Except ParseFault GroupNode :=
  if g.children.isEmpty then .error (.defect .emptyGroup)
  else .ok { g with actual := some token, stop := some position, state := .finalized }

end GroupNode

/-- The place of a group that is still open, and that of the open expression around it. -/
structure OpenLevel where
  group : Nat
  outer : Option Nat
deriving DecidableEq, Repr

/-- How far an arena was built: its nodes so far, the place of the open expression of the innermost
level and the levels around it, the innermost first. -/
structure Builder where
  expressions : List ExpressionNode
  groups : List GroupNode
  current : Option Nat
  opened : List OpenLevel
deriving DecidableEq, Repr

namespace Builder

def start : Builder := ⟨[], [], none, []⟩

def updateExpression (b : Builder) (id : Nat)
    (f : ExpressionNode → Except ParseFault ExpressionNode) : Except ParseFault Builder :=
  match b.expressions[id]? with
  | none => .error (.defect .missingNode)
  | some e => (f e).map fun e' => { b with expressions := b.expressions.set id e' }

def updateGroup (b : Builder) (id : Nat) (f : GroupNode → Except ParseFault GroupNode) :
    Except ParseFault Builder :=
  match b.groups[id]? with
  | none => .error (.defect .missingNode)
  | some g => (f g).map fun g' => { b with groups := b.groups.set id g' }

/-- The place of the open expression of the innermost level, made at `position` if there is none. -/
def currentExpression (b : Builder) (position : Nat) : Nat × Builder :=
  match b.current with
  | some id => (id, b)
  | none =>
    let id := b.expressions.length
    (id, { b with expressions := b.expressions ++ [.new position], current := some id })

def plain (b : Builder) (position : Nat) (c : Char) : Except ParseFault Builder :=
  let (id, b) := b.currentExpression position
  b.updateExpression id (·.append position [c])

def openGroup (limit : Nat) (b : Builder) (position : Nat) (bracket : Bracket) :
    Except ParseFault Builder :=
  if limit ≤ b.opened.length then .error (.tooDeep limit position)
  else
    -- the expression around the group gets its placeholder when the group is closed
    let (_, b) := b.currentExpression position
    .ok { b with
      groups := b.groups ++ [.new bracket position]
      current := none
      opened := ⟨b.groups.length, b.current⟩ :: b.opened }

/-- Ends the open expression, which becomes the next child of the innermost open group. Answers with
the place of that group too. -/
def endDimension (b : Builder) (token : Char) (position : Nat) : Except ParseFault (Nat × Builder) :=
  match b.current, b.opened with
  | none, _ => .error (.missingExpression position)
  | some _, [] =>
    if token = separator then .error (.straySeparator position) else .error (.strayClose token position)
  | some expression, level :: _ => do
    let b ← b.updateExpression expression fun e => .ok e.finalize
    let b ← b.updateGroup level.group fun g => .ok (g.addChild expression)
    return (level.group, { b with current := none })

def separate (b : Builder) (position : Nat) : Except ParseFault Builder :=
  (b.endDimension separator position).map Prod.snd

/-- Goes back to the level around the innermost one. -/
def leave (b : Builder) : Builder :=
  match b.opened with
  | [] => b
  | level :: levels => { b with current := level.outer, opened := levels }

/-- Ends the group at the place `id`, which is the innermost open one, and adds it to the expression
around it. -/
def endGroup (b : Builder) (id position : Nat) (token : Char) : Except ParseFault Builder :=
  match b.groups[id]? with
  | none => .error (.defect .missingNode)
  | some group =>
    if group.expected = token then do
      let b ← b.updateGroup id (·.finalize token position)
      let (parent, b) := b.leave.currentExpression group.start
      b.updateExpression parent (·.appendGroup id group.start position)
    else .error (.wrongClose group.expected token group.start position)

def closeGroup (b : Builder) (position : Nat) (token : Char) : Except ParseFault Builder := do
  let (id, b) ← b.endDimension token position
  b.endGroup id position token

def step (limit : Nat) (b : Builder) (position : Nat) (c : Char) : Except ParseFault Builder :=
  if c = separator then b.separate position
  else
    match Bracket.ofOpening c, Bracket.ofClosing c with
    | some bracket, _ => b.openGroup limit position bracket
    | none, some _ => b.closeGroup position c
    | none, none => b.plain position c

def run (limit : Nat) : List Char → Nat → Builder → Except ParseFault Builder
  | [], _, b => .ok b
  | c :: cs, position, b =>
    match b.step limit position c with
    | .error fault => .error fault
    | .ok b' => run limit cs (position + 1) b'

/-- The closing brackets still to come with the positions of their partners, outermost first. -/
def pending (b : Builder) : List (Char × Nat) :=
  b.opened.reverse.filterMap fun level =>
    b.groups[level.group]?.map fun g => (g.expected, g.start)

/-- The arena that was built, once `text` is over. -/
def finish (b : Builder) (text : Text) : Except ParseFault Arena :=
  match b.opened, b.current with
  | _ :: _, _ => .error (.unclosed b.pending)
  | [], none => .error (.missingExpression (text.stripped.length - 1))
  | [], some root =>
    (b.updateExpression root fun e => .ok e.finalize).map fun b => ⟨text, b.expressions, b.groups, root⟩

end Builder

namespace Arena

/-- The arena of a text. The placeholder is reserved. -/
def ofText (limit : Nat) (t : Text) : Except ParseFault Arena :=
  let reserved := t.positionsOf [placeholder]
  if reserved.isEmpty then
    match Builder.run limit t.stripped 0 .start with
    | .error fault => .error fault
    | .ok b => b.finish t
  else .error (.reservedCharacter placeholder reserved)

/-- The arena of an input, or a report of what is wrong with it. -/
def ofRaw (settings : Settings) (raw : String) : Except (Report ParseFault) Arena :=
  match Text.ofRaw raw with
  | .error fault => .error ⟨fault, none⟩
  | .ok t => (ofText settings.maxDepth t).mapError (t.report settings ParseFault.carets)

end Arena

end Reckon
