import Reckon.Pattern.Token

/-!
# Patterns as automata

To try the ways of matching one after the other can take a number of steps that doubles with each
character. An automaton follows all of them at once. Its states are the sets of the pattern,
numbered from the left. Between two characters a thread takes a way: a stretch of the pattern on
which nothing is read, which leads to a set or to the end.

Ways and threads are kept in order of preference. Threads in one state have the same future, so only
the first of them can matter, and nothing behind a thread that reached the end does. A character
thus costs at most one step for each state and each way out of it.
-/

namespace Reckon

/-! ### Ways -/

/-- A stretch of a pattern on which nothing is read. -/
structure Way where
  /-- It is open at the start of the text only. -/
  atStart : Bool
  /-- It is open at the end of the text only. -/
  atEnd : Bool
  /-- The ends of groups on it, in order. -/
  marks : List Mark
  /-- The set it leads to; without one, it leads to the end of the pattern. -/
  target : Option Nat
deriving DecidableEq, Repr

namespace Way

/-- The way that leads right to `target`. -/
def direct (target : Option Nat) : Way := ⟨false, false, [], target⟩

def onlyAtStart (w : Way) : Way := { w with atStart := true }

def onlyAtEnd (w : Way) : Way := { w with atEnd := true }

def behind (m : Mark) (w : Way) : Way := { w with marks := m :: w.marks }

def isOpen (w : Way) (c : Cursor) : Bool :=
  (!w.atStart || c.pos == 0) && (!w.atEnd || c.rest.isEmpty)

def follow (w : Way) (c : Cursor) : Cursor := w.marks.foldl Cursor.mark c

/-- Does `w` lead where `v` leads, and is it open wherever `v` is? -/
def covers (w v : Way) : Bool :=
  w.target == v.target && (!w.atStart || v.atStart) && (!w.atEnd || v.atEnd)

/-- The ways `ws` before the ways `vs`, without those of `vs` that are covered already. -/
def merge (ws vs : List Way) : List Way :=
  ws ++ vs.filter fun v => !ws.any fun w => w.covers v

end Way

/-! ### The automaton of a pattern -/

namespace Pattern

def size : Pattern → Nat
  | empty | textStart | textEnd => 0
  | set _ => 1
  | cat p q | alt p q => p.size + q.size
  | star p | plus p | opt p | group _ p => p.size

/-- The ways into a pattern whose sets are numbered from `n`, if `k` are the ways behind it. A round
of a repetition that reads nothing leads nowhere. -/
def ways : Pattern → (n : Nat) → (k : List Way) → List Way
  | empty, _, k => k
  | set _, n, _ => [.direct (some n)]
  | textStart, _, k => k.map Way.onlyAtStart
  | textEnd, _, k => k.map Way.onlyAtEnd
  | cat p q, n, k => p.ways n (q.ways (n + p.size) k)
  | alt p q, n, k => Way.merge (p.ways n k) (q.ways (n + p.size) k)
  | star p, n, k => Way.merge (p.ways n []) k
  | plus p, n, k => p.ways n (Way.merge (p.ways n []) k)
  | opt p, n, k => Way.merge (p.ways n k) k
  | group i p, n, k => (p.ways n (k.map (.behind (.closed i)))).map (.behind (.opened i))

/-- The sets of a pattern, each with the ways behind it. -/
def rows : Pattern → (n : Nat) → (k : List Way) → List (CharSet × List Way)
  | empty, _, _ | textStart, _, _ | textEnd, _, _ => []
  | set s, _, k => [(s, k)]
  | cat p q, n, k => p.rows n (q.ways (n + p.size) k) ++ q.rows (n + p.size) k
  | alt p q, n, k => p.rows n k ++ q.rows (n + p.size) k
  | star p, n, k | plus p, n, k => p.rows n (Way.merge (p.ways n []) k)
  | opt p, n, k => p.rows n k
  | group i p, n, k => p.rows n (k.map (.behind (.closed i)))

end Pattern

structure Automaton where
  /-- The ways from the start of the pattern. -/
  entry : List Way
  /-- The sets, each with the ways behind it. -/
  states : Array (CharSet × List Way)
deriving Repr

def Pattern.automaton (p : Pattern) : Automaton :=
  ⟨p.ways 0 [.direct none], (p.rows 0 [.direct none]).toArray⟩

/-! ### Running it -/

/-- A place in a text and the state that reads on from there, or none at the end of the pattern. -/
structure Thread where
  state : Option Nat
  cursor : Cursor
deriving DecidableEq, Repr

namespace Automaton

def threads (ways : List Way) (c : Cursor) : List Thread :=
  (ways.filter fun w => w.isOpen c).map fun w => ⟨w.target, w.follow c⟩

/-- The threads that come out of one when it reads a character. -/
def step (a : Automaton) (t : Thread) : List Thread :=
  match t.state.bind fun i => a.states[i]? with
  | none => []
  | some (s, ways) =>
    match t.cursor.next s with
    | none => []
    | some c => threads ways c

/-- The threads that go on, the first one of each state, and the end of the first thread that is
over where `accept` allows it. Threads behind that one are dropped. -/
def sift (accept : Cursor → Bool) : (seen : List Nat) → List Thread → List Thread × Option Cursor
  | _, [] => ([], none)
  | seen, ⟨none, c⟩ :: ts => if accept c then ([], some c) else sift accept seen ts
  | seen, ⟨some i, c⟩ :: ts =>
    if seen.contains i then sift accept seen ts
    else
      let later := sift accept (i :: seen) ts
      (⟨some i, c⟩ :: later.1, later.2)

/-- Follows threads through what is left of a text. `best` is the end of a match that is taken if
none of them gets to an end. -/
def advance (a : Automaton) (accept : Cursor → Bool) :
    (rest : List Char) → List Thread → (best : Option Cursor) → Option Cursor
  | [], _, best => best
  | _ :: xs, ts, best =>
    if ts.isEmpty then best
    else
      let next := sift accept [] (ts.flatMap a.step)
      advance a accept xs next.1 (next.2 <|> best)

/-- The preferred match at `c` that ends where `accept` allows it. -/
def find (a : Automaton) (accept : Cursor → Bool) (c : Cursor) : Option Cursor :=
  let first := sift accept [] (threads a.entry c)
  a.advance accept c.rest first.1 first.2

/-- The preferred match at the first place where there is one, from behind `pos` characters on. -/
def search (a : Automaton) : (rest : List Char) → (pos : Nat) → Option Cursor
  | [], pos => a.find (fun _ => true) ⟨[], pos, []⟩
  | x :: xs, pos => a.find (fun _ => true) ⟨x :: xs, pos, []⟩ <|> a.search xs (pos + 1)

/-- Where the preferred match at a place behind `pos` characters ends. -/
def stopAt (a : Automaton) (rest : List Char) (pos : Nat) : Option Nat :=
  (a.find (fun _ => true) ⟨rest, pos, []⟩).map Cursor.pos

def tokens (a : Automaton) (text : List Char) : List Span :=
  Pattern.tokensFrom a.stopAt text 0 0 none

end Automaton

end Reckon
