import Reckon.Regex.Basic
import Reckon.Regex.Place

/-!
# Notations of regular expressions

A source is read piece by piece: an atom, the ends of a group, a choice mark, a repetition mark. What
the first piece of a text is, is the matter of a `Dialect`. Flags can make a difference there, and a
group ends with the flags it began with.

What becomes of the pieces is the same in all of them. Open groups are levels on a stack; within the
innermost one the finished alternatives and the items of the current alternative are kept, the latest
first. A repetition mark changes the latest item, so marks add up: `a+*` repeats `a+`.

`Dialect.Parses` says as what a source is read, and `Dialect.parse` reads it.
-/

namespace Reckon

/-- A piece of a source. -/
inductive Piece (α : Type)
  | atom (a : α)
  | opening (captures : Bool)
  | closing
  | bar
  /-- A repetition mark. -/
  | mark (least : Nat) (most : Option Nat)
  /-- A setting of flags. -/
  | setting
  /-- White space or a comment, where it means nothing. -/
  | space
deriving DecidableEq, Repr

/-- Does a piece open and close no group? -/
def Piece.IsPlain {α : Type} : Piece α → Prop
  | opening _ | closing => False
  | atom _ | bar | mark _ _ | setting | space => True

structure Dialect where
  Atom : Type
  sense : Atom → Sense
  /-- What a piece depends on besides its text. -/
  Flags : Type
  initial : Flags
  /-- The first piece of a text, the flags behind it and the rest of the text. -/
  next : Flags → List Char → Option (Piece Atom × Flags × List Char)

/-- A group that is open, or the whole expression. -/
structure Level (D : Dialect) where
  captures : Bool
  /-- The flags that hold behind it. -/
  flags : D.Flags
  /-- Alternatives to the left. -/
  done : List (Regex D.Atom)
  /-- Items of the current alternative. -/
  items : List (Regex D.Atom)

namespace Level

variable {D : Dialect}

def new (captures : Bool) (flags : D.Flags) : Level D := ⟨captures, flags, [], []⟩

def push (l : Level D) (p : Regex D.Atom) : Level D := { l with items := p :: l.items }

def split (l : Level D) : Level D :=
  { l with done := .sequence l.items.reverse :: l.done, items := [] }

/-- Repeats the latest item. There is nothing to repeat at the start of an alternative and behind a
setting of flags. -/
def repeatLast (l : Level D) (least : Nat) (most : Option Nat) : Option (Level D) :=
  match l.items with
  | [] | .empty :: _ => none
  | p :: ps => some { l with items := .rep least most p :: ps }

def body (l : Level D) : Regex D.Atom := .choice l.split.done.reverse

end Level

namespace Dialect

/-- A source that is being read. -/
structure State (D : Dialect) where
  flags : D.Flags
  /-- The innermost open group; the outermost one is the whole expression. -/
  top : Level D
  below : List (Level D)

namespace State

variable {D : Dialect}

def start (D : Dialect) : State D := ⟨D.initial, .new false D.initial, []⟩

def push (s : State D) (p : Regex D.Atom) : State D := { s with top := s.top.push p }

/-- Opens a group whose body is read under `flags`. -/
def openGroup (s : State D) (captures : Bool) (flags : D.Flags) : State D :=
  ⟨flags, .new captures s.flags, s.top :: s.below⟩

def closeGroup (s : State D) : Option (State D) :=
  match s.below with
  | [] => none
  | l :: ls => some ⟨s.top.flags, l.push (.group s.top.captures s.top.body), ls⟩

/-- The state behind a piece with `flags` behind it. -/
def take (s : State D) (flags : D.Flags) : Piece D.Atom → Option (State D)
  | .atom a => some { s.push (.atom a) with flags }
  | .opening captures => some (s.openGroup captures flags)
  | .closing => s.closeGroup
  | .bar => some { s with flags, top := s.top.split }
  | .mark least most => (s.top.repeatLast least most).map fun top => { s with flags, top }
  | .setting => some { s.push .empty with flags }
  | .space => some { s with flags }

/-- From a state with a text ahead, reading leads to a state with a rest of it. -/
inductive Reads : State D → List Char → State D → List Char → Prop
  | done {s : State D} {t : List Char} : Reads s t s t
  | step {s s' e : State D} {t u v : List Char} {p : Piece D.Atom} {f : D.Flags}
      (hnext : D.next s.flags t = some (p, f, u)) (htake : s.take f p = some s')
      (h : Reads s' u e v) : Reads s t e v

/-- Reads a text to its end, in at most `fuel` pieces. -/
def read : (fuel : Nat) → State D → List Char → Option (State D)
  | _, s, [] => some s
  | 0, _, _ :: _ => none
  | fuel + 1, s, c :: cs =>
    match D.next s.flags (c :: cs) with
    | none => none
    | some (p, f, u) => (s.take f p).bind fun s' => read fuel s' u

end State

/-- A source is read as `p`: all of it is, and no group is left open. -/
def Parses (D : Dialect) (source : List Char) (p : Regex D.Atom) : Prop :=
  ∃ s : State D, (State.start D).Reads source s [] ∧ s.below = [] ∧ p = s.top.body

/-- What a source is read as. A piece has a character at least, so there is fuel enough. -/
def parse (D : Dialect) (source : List Char) : Option (Regex D.Atom) :=
  ((State.start D).read source.length source).bind fun s =>
    if s.below.isEmpty then some s.top.body else none

/-! ### What all notations have in common -/

/-- A source between parentheses that do not capture. -/
def enclose (source : List Char) : List Char := '(' :: '?' :: ':' :: (source ++ [')'])

/-- What notations have in common. Under other flags than the initial ones spaces and groups may be read
in another way, but for `)` and `(?:`. -/
structure Standard (D : Dialect) : Prop where
  /-- A piece has characters. -/
  advances {f g : D.Flags} {t r : List Char} {p : Piece D.Atom} :
    D.next f t = some (p, g, r) → ∃ u, u ≠ [] ∧ t = u ++ r
  /-- `)` closes a group under all flags. -/
  closing (f : D.Flags) (t : List Char) : ∃ g, D.next f (')' :: t) = some (.closing, g, t)
  /-- `(?:` opens a group that does not capture and leaves the flags as they are. -/
  plain (f : D.Flags) (t : List Char) :
    D.next f ('(' :: '?' :: ':' :: t) = some (.opening false, f, t)
  /-- A `(` with no `?` behind it opens a group that captures. -/
  capture {t : List Char} : t.head? ≠ some '?' →
    D.next D.initial ('(' :: t) = some (.opening true, D.initial, t)
  bar (t : List Char) : D.next D.initial ('|' :: t) = some (.bar, D.initial, t)
  /-- `^` stands for the start of the text and `$` for its end. -/
  textStart : ∃ a, D.sense a = .looks (fun before _ => before = []) ∧
    ∀ t, D.next D.initial ('^' :: t) = some (.atom a, D.initial, t)
  textEnd : ∃ a, D.sense a = .looks (fun _ after => after = []) ∧
    ∀ t, D.next D.initial ('$' :: t) = some (.atom a, D.initial, t)
  /-- Before a `)` a piece is what it is before the end of the text, but for a comment, which may take
  in the `)`. -/
  beforeClosing {f g : D.Flags} {t r : List Char} {p : Piece D.Atom} :
    D.next f t = some (p, g, r) →
      D.next f (t ++ [')']) = some (p, g, r ++ [')']) ∨ D.next f (t ++ [')']) = some (p, g, [])
  /-- What stands behind a `)` makes no difference to a piece that ends before it. -/
  behindClosing {f g : D.Flags} {t r : List Char} {p : Piece D.Atom} :
    D.next f (t ++ [')']) = some (p, g, r ++ [')']) →
      ∀ u, D.next f (t ++ ')' :: u) = some (p, g, r ++ ')' :: u)
  /-- A piece that does not start with a parenthesis leaves the flags as they are and opens and closes
  no group. All its parentheses are in sets or behind backslashes. -/
  other {c : Char} {g : D.Flags} {t r : List Char} {p : Piece D.Atom} : c ≠ '(' → c ≠ ')' →
    D.next D.initial (c :: t) = some (p, g, r) →
      g = D.initial ∧ p.IsPlain ∧ ∃ u, c :: t = u ++ r ∧ Place.outside.Covers u

end Dialect

end Reckon
