import Reckon.Fault
import Reckon.Grammar.Part
import Reckon.Pattern.Engine

/-!
# Components of a grammar

A component is a source that compiles, with names for its capture groups. A `leaf` has none. `compose`
assembles a component from a template: `%s` stands for the next part and each `(` opens a group that
takes the next name. A part goes in between `(?:` and `)`, so its alternatives stay together, and its
groups are shifted by the groups opened before it, so names keep pointing at their groups.

Every `(` of a template opens a named group. A template has no plain parenthesis.

What compiles and what matches is left to an engine. That of patterns is the one taken where none is
named.
-/

namespace Reckon

structure Component (E : Engine := Pattern.engine) where
  description : String
  template : String
  source : List Char
  /-- The program for matches anywhere in a text. -/
  anywhere : E.Program
  anywhere_eq : E.compile source = some anywhere
  /-- The program for matches at the start of a text. -/
  front : E.Program
  front_eq : E.compile ('^' :: Dialect.enclose source) = some front
  /-- The program for matches of a whole text. -/
  whole : E.Program
  whole_eq : E.compile ('^' :: (Dialect.enclose source ++ ['$'])) = some whole
  /-- The outermost named groups. -/
  parts : List Part

namespace Component

variable {E : Engine}

/-! ### Queries -/

def groupCount (c : Component E) : Nat := Part.sizes c.parts

def captureCount (c : Component E) : Nat := E.captureCount c.front

def find? (c : Component E) (path : List PartName) : Option Part := Part.find? path c.parts

/-- The number of the part that a chain of names leads to. -/
def group? (c : Component E) (path : List PartName) : Option Nat := (c.find? path).map Part.group

def matchStart (c : Component E) (text : List Char) : Option Cursor := E.captures c.front text

def matchAll (c : Component E) (text : List Char) : Option Cursor := E.captures c.whole text

def accepts (c : Component E) (text : List Char) : Bool := E.isMatch c.whole text

def tokens (c : Component E) (text : List Char) : List Span := E.tokens c.anywhere text

/-- The pattern of a component over the engine of patterns. -/
def pattern (c : Component) : Pattern := c.anywhere.pattern

/-! ### Compiling -/

/-- A component of a source, if it compiles in all three uses. -/
def ofSource (description template : String) (source : List Char) (parts : List Part) :
    Except GrammarFault (Component E) :=
  match hanywhere : E.compile source, hfront : E.compile ('^' :: Dialect.enclose source),
      hwhole : E.compile ('^' :: (Dialect.enclose source ++ ['$'])) with
  | some anywhere, some front, some whole =>
    .ok ⟨description, template, source, anywhere, hanywhere, front, hfront, whole, hwhole, parts⟩
  | _, _, _ => .error (.invalidPattern description)

def leaf (description form : String) : Except GrammarFault (Component E) := do
  let component ← ofSource description form form.toList []
  let groups := component.captureCount
  if groups = 0 then return component else .error (.groupCount description groups 0)

/-! ### Templates -/

/-- A group of a template that is still open. -/
structure OpenPart where
  name : PartName
  group : Nat
  children : List Part

structure Assembly (E : Engine) where
  /-- The source assembled so far, the latest character first. -/
  source : List Char
  roots : List Part
  /-- The open groups, the innermost first. -/
  opened : List OpenPart
  /-- How many groups were opened, those of the parts included. -/
  allocated : Nat
  names : List PartName
  components : List (Component E)

namespace Assembly

def start (names : List PartName) (components : List (Component E)) : Assembly E :=
  ⟨[], [], [], 0, names, components⟩

/-- Adds finished parts to the innermost open group. -/
def add (a : Assembly E) (parts : List Part) : Assembly E :=
  match a.opened with
  | [] => { a with roots := a.roots ++ parts }
  | o :: os => { a with opened := { o with children := o.children ++ parts } :: os }

def write (a : Assembly E) (c : Char) : Assembly E := { a with source := c :: a.source }

def splice (a : Assembly E) : Assembly E :=
  match a.components with
  | [] => a
  | c :: cs =>
    let b := a.add (Part.shifts a.allocated c.parts)
    { b with
      source := (Dialect.enclose c.source).reverse ++ a.source
      allocated := a.allocated + Part.sizes c.parts
      components := cs }

/-- Opens a group under the next name. -/
def openGroup (a : Assembly E) : Assembly E :=
  match a.names with
  | [] => a
  | name :: names =>
    { a with
      source := '(' :: a.source
      opened := ⟨name, a.allocated + 1, []⟩ :: a.opened
      allocated := a.allocated + 1
      names := names }

/-- Closes the innermost group, if there is one. -/
def closeGroup (a : Assembly E) : Option (Assembly E) :=
  match a.opened with
  | [] => none
  | o :: os =>
    some ((({ a with opened := os } : Assembly E).add [⟨o.name, o.group, o.children⟩]).write ')')

def read : List Char → Assembly E → Option (Assembly E)
  | [], a => if a.opened.isEmpty then some a else none
  | '%' :: 's' :: rest, a => read rest a.splice
  | c :: rest, a =>
    if c = '(' then read rest a.openGroup
    else if c = ')' then (a.closeGroup).bind (read rest)
    else read rest (a.write c)

end Assembly

/-- How often a template asks for a part. -/
def placeholders : List Char → Nat
  | [] => 0
  | '%' :: 's' :: rest => placeholders rest + 1
  | _ :: rest => placeholders rest

/-- Assembles a component, with a name for each `(` of the template and a part for each `%s`. -/
def compose (description template : String) (names : List PartName)
    (parts : List (Component E)) : Except GrammarFault (Component E) :=
  let text := template.toList
  let groups := text.count '('
  if groups ≠ names.length then .error (.groupCount description groups names.length)
  else if placeholders text ≠ parts.length then
    .error (.placeholderCount description (placeholders text) parts.length)
  else
    match Assembly.read text (.start names parts) with
    | none => .error (.unbalanced description)
    | some a => ofSource description template a.source.reverse a.roots

end Component

/-- What the group at the end of a chain of names captured. -/
def Cursor.part? (m : Cursor) (parts : List Part) (path : List PartName) : Option Span :=
  (Part.find? path parts).bind fun p => m.group? p.group

end Reckon
