import Reckon.Pattern.Basic
import Reckon.Regex.Dialect

/-!
# The notation of patterns

The notation has plain characters, `.`, `^` and `$`, sets such as `[a-z_]` and `[^0-9]`, groups that
capture, `( )`, and groups that do not, `(?: )`, choice `|` and the marks `*`, `+` and `?`. A
backslash before a mark of the notation, or any other ASCII punctuation, makes it plain. Capture
groups are numbered from 1 in the order in which they open.

Other notations use some of these characters for more: a `?` behind a repetition mark asks for the
fewest rounds, `{` for a number of them, and a set can hold sets and the operators `&&`, `--` and
`~~`. Such a source is refused, so what is read means the same there and here.
-/

namespace Reckon.Pattern

inductive Atom
  | set (s : CharSet)
  | textStart
  | textEnd
deriving DecidableEq, Repr

namespace Atom

def sense : Atom → Sense
  | set s => .reads fun x => s.mem x
  | textStart => .looks fun before _ => before = []
  | textEnd => .looks fun _ after => after = []

def pattern : Atom → Pattern
  | set s => .set s
  | textStart => .textStart
  | textEnd => .textEnd

end Atom

/-- May a backslash stand before `c`? -/
def escapable (c : Char) : Bool :=
  c.toNat < 128 && 32 < c.toNat && !c.isAlphanum && c != '<' && c != '>' && c.toNat != 127

/-! ### Sets -/

/-- A set that is being read. `pending` is a character that may turn out to start a range, `dash`
says that the range mark after it was read. -/
structure SetDraft where
  negated : Bool
  ranges : List (Char × Char)
  pending : Option Char
  dash : Bool
  /-- Nothing was read yet, `fresh` of the mark `^` and `blank` of a member. -/
  fresh : Bool
  blank : Bool
deriving DecidableEq, Repr

namespace SetDraft

def new : SetDraft := ⟨false, [], none, false, true, true⟩

/-- Would `c` end an operator on sets, or start a range at a bracket? -/
def isReserved (d : SetDraft) (c : Char) : Bool :=
  (c = '&' || c = '~') && d.pending = some c ||
    c = '-' && (d.dash || d.pending = some '-' || d.pending = some ']')

/-- The members read so far, the pending one among them. -/
def flush (d : SetDraft) : List (Char × Char) :=
  match d.pending with
  | none => d.ranges
  | some c => (c, c) :: d.ranges

def member (d : SetDraft) (c : Char) : Option SetDraft :=
  match d.pending, d.dash with
  | some first, true =>
    if first ≤ c then
      some { d with ranges := (first, c) :: d.ranges, pending := none, dash := false,
                    fresh := false, blank := false }
    else none
  | _, _ => some { d with ranges := d.flush, pending := some c, dash := false,
                          fresh := false, blank := false }

/-- The finished set. A range mark before the closing bracket is a member. -/
def close (d : SetDraft) : CharSet :=
  ⟨d.negated, (if d.dash then ('-', '-') :: d.flush else d.flush).reverse⟩

end SetDraft

/-- Reads a set to its closing bracket, from behind a backslash on if it is `escaped`. -/
def readSet (d : SetDraft) : (escaped : Bool) → List Char → Option (CharSet × List Char)
  | _, [] => none
  | true, c :: cs =>
    if escapable c then (d.member c).bind fun d' => readSet d' false cs else none
  | false, c :: cs =>
    if c = '^' && d.fresh then readSet { d with negated := true, fresh := false } false cs
    else if c = ']' && !d.blank then some (d.close, cs)
    else if c = '[' then none
    else if c = '\\' then readSet d true cs
    else if d.isReserved c then none
    else if c = '-' && d.pending.isSome then readSet { d with dash := true } false cs
    else (d.member c).bind fun d' => readSet d' false cs

/-! ### Pieces -/

def readMark (least : Nat) (most : Option Nat) (rest : List Char) :
    Option (Piece Atom × List Char) :=
  if rest.head? = some '?' then none else some (.mark least most, rest)

/-- Reads what stands behind an opening parenthesis. -/
def readOpening (rest : List Char) : Option (Piece Atom × List Char) :=
  match rest with
  | '?' :: ':' :: cs => some (.opening false, cs)
  | '?' :: _ => none
  | _ => some (.opening true, rest)

/-- Reads what stands behind a backslash. -/
def readEscape : List Char → Option (Piece Atom × List Char)
  | [] => none
  | c :: cs => if escapable c then some (.atom (.set (.single c)), cs) else none

/-- The first piece of a text and the rest. -/
def next : List Char → Option (Piece Atom × List Char)
  | [] => none
  | c :: cs =>
    if c = '\\' then readEscape cs
    else if c = '(' then readOpening cs
    else if c = ')' then some (.closing, cs)
    else if c = '[' then (readSet .new false cs).map fun s => (.atom (.set s.1), s.2)
    else if c = '|' then some (.bar, cs)
    else if c = '*' then readMark 0 none cs
    else if c = '+' then readMark 1 none cs
    else if c = '?' then readMark 0 (some 1) cs
    else if c = '{' then none
    else if c = '.' then some (.atom (.set .anyOnLine), cs)
    else if c = '^' then some (.atom .textStart, cs)
    else if c = '$' then some (.atom .textEnd, cs)
    else some (.atom (.set (.single c)), cs)

/-- The notation of patterns. It has no flags. -/
@[reducible] def dialect : Dialect where
  Atom := Atom
  sense := Atom.sense
  Flags := Unit
  initial := ()
  next _ text := (next text).map fun r => (r.1, (), r.2)

/-! ### Patterns of expressions -/

/-- The pattern of an expression before which `n` groups open, if it has no other repetitions than
patterns have. -/
def ofRegex : Regex Atom → (n : Nat) → Option Pattern
  | .empty, _ => some empty
  | .atom a, _ => some a.pattern
  | .cat p q, n => do return cat (← ofRegex p n) (← ofRegex q (n + p.captures))
  | .alt p q, n => do return alt (← ofRegex p n) (← ofRegex q (n + p.captures))
  | .rep 0 none p, n => (ofRegex p n).map star
  | .rep 1 none p, n => (ofRegex p n).map plus
  | .rep 0 (some 1) p, n => (ofRegex p n).map opt
  | .rep _ _ _, _ => none
  | .group true p, n => (ofRegex p (n + 1)).map (group (n + 1))
  | .group false p, n => ofRegex p n

def ofSource (source : List Char) : Option Pattern :=
  (dialect.parse source).bind fun p => ofRegex p 0

end Reckon.Pattern
