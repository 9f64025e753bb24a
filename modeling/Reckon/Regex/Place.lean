/-!
# Places in a source

Where the characters of the source of a regular expression stand: outside, behind a backslash, or in a
set. A set ends at the first `]` that is neither escaped nor a member, and which one that is takes some
care: a `]` right behind the opening bracket is a member, sets stand in sets, and a `[` that ends a
range opens none. Hence a character in a set is told by what a set is read as up to it.

No white space is skipped and no flag is set here: this is the plain notation.
-/

namespace Reckon

/-- Where a character of a set stands. -/
inductive SetPlace
  /-- Behind the opening bracket, where a `^` negates the set. -/
  | start
  /-- Behind that `^`. Here as at the start a `]` is a member. -/
  | negated
  /-- Behind range marks at the start, which are members. -/
  | dashes
  | ready
  /-- Behind a member that can start a range, with the character if it is not escaped. -/
  | member (c : Option Char)
  /-- Behind such a member and a range mark. -/
  | range
  /-- Behind a backslash. With `last`, what it escapes ends a range. -/
  | escaped (last : Bool)
  /-- In an escape of `n` more characters, or one in braces. -/
  | code (n : Nat) (last : Bool)
  /-- In the braces of an escape. -/
  | braces (last : Bool)
deriving DecidableEq, Repr

/-- Where a character of a source stands. -/
inductive Place
  | outside
  /-- Behind a backslash. -/
  | escaped
  /-- In a set that stands in `depth` others. -/
  | inSet (depth : Nat) (p : SetPlace)
deriving DecidableEq, Repr

namespace Place

/-- The place behind the bracket that closes a set. -/
def closed : (depth : Nat) → Place
  | 0 => outside
  | depth + 1 => inSet depth .ready

/-- The place behind a character that stands between two members of a set. -/
def between (depth : Nat) (c : Char) : Place :=
  if c = '[' then inSet (depth + 1) .start
  else if c = ']' then closed depth
  else if c = '\\' then inSet depth (.escaped false)
  else inSet depth (.member (some c))

/-- The place behind what a backslash escapes. -/
def behindEscape (depth : Nat) (last : Bool) : Place :=
  inSet depth (if last then .ready else .member none)

/-- The place behind a character. -/
def next : Place → Char → Place
  | outside, c => if c = '\\' then escaped else if c = '[' then inSet 0 .start else outside
  | escaped, _ => outside
  | inSet depth .start, c =>
    if c = '^' then inSet depth .negated
    else if c = '-' then inSet depth .dashes
    else if c = ']' then inSet depth .ready
    else between depth c
  | inSet depth .negated, c =>
    if c = '-' then inSet depth .dashes
    else if c = ']' then inSet depth .ready
    else between depth c
  | inSet depth .dashes, c => if c = '-' then inSet depth .dashes else between depth c
  | inSet depth .ready, c => between depth c
  | inSet depth (.member d), c =>
    -- two of a kind are an operation on sets
    if d = some c ∧ c ∈ ['&', '~', '-'] then inSet depth .ready
    else if c = '-' then inSet depth .range
    else between depth c
  | inSet depth .range, c =>
    -- before the closing bracket the range mark is a member, and two of them are an operation
    if c = ']' then closed depth
    else if c = '\\' then inSet depth (.escaped true)
    else inSet depth .ready
  | inSet depth (.escaped last), c =>
    if c = 'x' then inSet depth (.code 2 last)
    else if c = 'u' then inSet depth (.code 4 last)
    else if c = 'U' then inSet depth (.code 8 last)
    else if c = 'p' ∨ c = 'P' then inSet depth (.code 1 last)
    else behindEscape depth last
  | inSet depth (.code n last), c =>
    if c = '\x7b' then inSet depth (.braces last)
    else if n ≤ 1 then behindEscape depth last
    else inSet depth (.code (n - 1) last)
  | inSet depth (.braces last), c =>
    if c = '\x7d' then behindEscape depth last else inSet depth (.braces last)

/-- Does a text from some place on end outside, with no parenthesis outside? -/
def Covers : Place → List Char → Prop
  | p, [] => p = outside
  | p, c :: cs => (p = outside → c ≠ '(' ∧ c ≠ ')') ∧ (p.next c).Covers cs

end Place

end Reckon
