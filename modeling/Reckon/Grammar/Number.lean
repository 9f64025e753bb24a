import Reckon.Fraction.Literal
import Reckon.Grammar.Tables

/-!
# Number literals

A literal is taken apart by the groups that its match captured. `NumberParts` names the form and
keeps the text of each part; `NumberParts.entries` lists the same parts by name, which is what a
reader of numbers gets. `Entries.literal` writes the parts back in the notation.
-/

namespace Reckon

/-- The parts of a literal by name, in the order of the notation. -/
abbrev Entries := List (PartName × List Char)

namespace Entries

/-- The text of a part, empty if the literal does not have it. -/
def text (e : Entries) (name : PartName) : List Char := (e.lookup name).getD []

def literal (e : Entries) : List Char :=
  let plain := e.text .plainFraction
  let repeating := e.text .repeatingFraction
  let block := if repeating.isEmpty then [] else '{' :: repeating ++ ['}', 'R']
  let fraction := if plain.isEmpty && repeating.isEmpty then [] else '.' :: plain ++ block
  let exponent := match e.lookup .exponent with
    | none => []
    | some digits => 'E' :: digits
  e.text .integerPart ++ fraction ++ exponent

end Entries

/-- The parts of a literal. A part that is there is not empty. -/
structure NumberParts where
  form : Form
  integer : List Char
  plain : Option (List Char)
  repeating : Option (List Char)
  exponent : Option (List Char)
deriving DecidableEq, Repr

namespace NumberParts

/-- The forms of a number with the names of their groups, the most specific first. -/
def forms : List (PartName × Form) :=
  [(.repeatingScientific, .repeatingScientific), (.scientific, .scientific),
    (.repeatingDecimal, .repeatingDecimal), (.decimal, .decimal), (.integer, .integer)]

/-- What a group captured in `text`, if it captured anything. -/
def captured (m : Cursor) (text : List Char) (parts : List Part) (path : List PartName) :
    Option (List Char) :=
  ((m.part? parts path).map fun s => s.of text).filter fun cs => !cs.isEmpty

/-- The parts that a match in `text` captured. `alternatives` are the groups of the five forms. -/
def ofMatch (m : Cursor) (text : List Char) (alternatives : List Part) : Option NumberParts := do
  let (name, form) ← forms.find? fun f => (m.part? alternatives [f.1]).isSome
  let node ← Part.find? [name] alternatives
  let part := captured m text node.children
  let integer ← part [.integerPart]
  return {
    form := form
    integer := integer
    plain := part [.plainFraction] <|> part [.mantissaFraction, .plainFraction]
    repeating := part [.repeatingFraction]
    exponent := part [.exponent] }

def ofLiteral (literal : List Char) : Option NumberParts := do
  let number := Form.anyNumber.component
  let m ← number.matchAll literal
  ofMatch m literal number.parts

/-- The parts that are there, by name. -/
def entries (p : NumberParts) : Entries :=
  (.integerPart, p.integer) ::
    ((p.plain.map fun cs => (.plainFraction, cs)).toList ++
      (p.repeating.map fun cs => (.repeatingFraction, cs)).toList ++
      (p.exponent.map fun cs => (.exponent, cs)).toList)

def value (p : NumberParts) : Except ArithmeticFault Fraction :=
  Fraction.ofParts p.integer (p.plain.getD []) (p.repeating.getD []) p.exponent

end NumberParts

def Fraction.ofLiteral (literal : List Char) : Except ParseFault Fraction :=
  match NumberParts.ofLiteral literal with
  | none => .error (.notANumber (String.ofList literal))
  | some parts =>
    match parts.value with
    | .error fault => .error (.arithmetic fault)
    | .ok value => .ok value

/-- Turns the parts of a literal into a value. -/
abbrev NumberReader := Entries → Except ResolveFault Fraction

/-- What a reader may answer besides a value: that the number is not valid. -/
def NumberReader.Lawful (r : NumberReader) : Prop :=
  ∀ entries fault, r entries = .error fault →
    ∃ literal reason, fault = .invalidNumber literal reason

/-- Reads a literal as the exact number it denotes. -/
def NumberReader.exact : NumberReader := fun entries =>
  let reject (reason : String) : Except ResolveFault Fraction :=
    .error (.invalidNumber (String.ofList entries.literal) reason)
  match entries.lookup .integerPart with
  | none => reject "missing integer part"
  | some integer =>
    match Fraction.ofParts integer (entries.text .plainFraction) (entries.text .repeatingFraction)
        (entries.lookup .exponent) with
    | .error fault => reject fault.headline
    | .ok value => .ok value

end Reckon
