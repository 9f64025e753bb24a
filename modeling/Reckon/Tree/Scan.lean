import Reckon.Settings
import Reckon.Text.Caret
import Reckon.Tree.Basic

/-!
# Reading a tree

The stripped text is read once, a character at a time. At each level there is at most one expression
that is being read, a draft; a group that is still open keeps the draft of the level around it,
which gets the group as its next item when the bracket is closed. A level starts without a draft:
the first character or opening bracket makes one, and a comma or a closing bracket needs one.

A draft is extended only at the position behind its last character, which `Draft.append` checks.
-/

namespace Reckon

/-- An expression that is being read, the latest item first. -/
structure Draft where
  start : Nat
  stop : Nat
  items : List Item

namespace Draft

def new (position : Nat) : Draft := ⟨position, position, []⟩

/-- Adds an item that is read at `position`. -/
def append (d : Draft) (position : Nat) (item : Item) : Except ParseFault Draft :=
  if position = d.stop then .ok ⟨d.start, item.behind position, item :: d.items⟩
  else .error (.defect (.misplacedAppend position d.stop))

def finish (d : Draft) : Expression := .mk d.start d.stop d.items.reverse

end Draft

/-- A group that is still open, the latest of its expressions first, and the draft around it. -/
structure OpenGroup where
  bracket : Bracket
  start : Nat
  children : List Expression
  outer : Draft

/-- How far a text was read: the draft of the innermost level and the open groups, the innermost
first. -/
structure Scan where
  current : Option Draft
  opened : List OpenGroup

namespace Scan

def start : Scan := ⟨none, []⟩

/-- The draft of the innermost level, made at `position` if there is none. -/
def draft (s : Scan) (position : Nat) : Draft := s.current.getD (.new position)

def plain (s : Scan) (position : Nat) (c : Char) : Except ParseFault Scan := do
  let d ← (s.draft position).append position (.char c)
  return { s with current := some d }

def openGroup (limit : Nat) (s : Scan) (position : Nat) (b : Bracket) : Except ParseFault Scan :=
  if limit ≤ s.opened.length then .error (.tooDeep limit position)
  else .ok ⟨none, ⟨b, position, [], s.draft position⟩ :: s.opened⟩

def separate (s : Scan) (position : Nat) : Except ParseFault Scan :=
  match s.current, s.opened with
  | none, _ => .error (.missingExpression position)
  | some _, [] => .error (.straySeparator position)
  | some d, g :: gs => .ok ⟨none, { g with children := d.finish :: g.children } :: gs⟩

def closeGroup (s : Scan) (position : Nat) (b : Bracket) : Except ParseFault Scan :=
  match s.current, s.opened with
  | none, _ => .error (.missingExpression position)
  | some _, [] => .error (.strayClose b.closing position)
  | some d, g :: gs =>
    if g.bracket = b then do
      let group := Group.mk b g.start position (d.finish :: g.children).reverse
      let outer ← g.outer.append g.start (.group group)
      return ⟨some outer, gs⟩
    else .error (.wrongClose g.bracket.closing b.closing g.start position)

def step (limit : Nat) (s : Scan) (position : Nat) (c : Char) : Except ParseFault Scan :=
  if c = separator then s.separate position
  else
    match Bracket.ofOpening c, Bracket.ofClosing c with
    | some b, _ => s.openGroup limit position b
    | none, some b => s.closeGroup position b
    | none, none => s.plain position c

def run (limit : Nat) : List Char → Nat → Scan → Except ParseFault Scan
  | [], _, s => .ok s
  | c :: cs, position, s =>
    match s.step limit position c with
    | .error fault => .error fault
    | .ok s' => run limit cs (position + 1) s'

/-- The closing brackets still to come with the positions of their partners, outermost first. -/
def pending (s : Scan) : List (Char × Nat) :=
  s.opened.reverse.map fun g => (g.bracket.closing, g.start)

/-- The expression read, once the text of `length` characters is over. -/
def finish (s : Scan) (length : Nat) : Except ParseFault Expression :=
  match s.opened, s.current with
  | _ :: _, _ => .error (.unclosed s.pending)
  | [], none => .error (.missingExpression (length - 1))
  | [], some d => .ok d.finish

end Scan

/-- The expression a text without gaps spells. -/
def Expression.ofStripped (limit : Nat) (cs : List Char) : Except ParseFault Expression :=
  match Scan.run limit cs 0 .start with
  | .error fault => .error fault
  | .ok s => s.finish cs.length

namespace Tree

/-- The tree of a text. The placeholder is reserved. -/
def ofText (limit : Nat) (t : Text) : Except ParseFault Tree :=
  let reserved := t.positionsOf [placeholder]
  if reserved.isEmpty then (Expression.ofStripped limit t.stripped).map fun root => ⟨t, root⟩
  else .error (.reservedCharacter placeholder reserved)

/-- The tree of an input, or a report of what is wrong with it. -/
def ofRaw (settings : Settings) (raw : String) : Except (Report ParseFault) Tree :=
  match Text.ofRaw raw with
  | .error fault => .error ⟨fault, none⟩
  | .ok t => (ofText settings.maxDepth t).mapError (t.report settings ParseFault.carets)

end Tree

end Reckon
