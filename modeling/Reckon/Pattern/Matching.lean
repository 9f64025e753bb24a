import Reckon.Pattern.Cursor

/-!
# Matching

A pattern is run on a cursor, with a continuation that decides whether what follows is acceptable.
The ways of matching are tried in order of preference and the first acceptable one is the answer. A
repetition goes on only as long as it makes progress, so it is bounded by what is left of the text.

`run` says which match is meant. How it is found in time is the matter of `Automaton`.
-/

namespace Reckon.Pattern

variable {α : Type}

/-- Runs `body` as often as it can, at most `fuel` times, and then `k`. -/
def iterate (body : (Cursor → Option α) → Cursor → Option α) (k : Cursor → Option α) :
    Nat → Cursor → Option α
  | 0, c => k c
  | fuel + 1, c =>
    body (fun c' => if c'.rest.length < c.rest.length then iterate body k fuel c' else none) c <|>
      k c

/-- The first way of matching at `c` that `k` accepts. -/
def run : Pattern → (Cursor → Option α) → Cursor → Option α
  | empty, k, c => k c
  | set s, k, c => (c.next s).bind k
  | textStart, k, c => if c.pos = 0 then k c else none
  | textEnd, k, c => if c.rest = [] then k c else none
  | cat p q, k, c => p.run (q.run k) c
  | alt p q, k, c => p.run k c <|> q.run k c
  | star p, k, c => iterate p.run k c.rest.length c
  | plus p, k, c => p.run (fun c' => iterate p.run k c'.rest.length c') c
  | opt p, k, c => p.run k c <|> k c
  | group i p, k, c => p.run (fun c' => k (c'.mark (.closed i))) (c.mark (.opened i))

/-- The preferred match at `c` that ends where `accept` allows it. -/
def find (p : Pattern) (accept : Cursor → Bool) (c : Cursor) : Option Cursor :=
  p.run (fun c' => if accept c' then some c' else none) c

/-- The preferred match at the start of `text`. -/
def matchStart (p : Pattern) (text : List Char) : Option Cursor :=
  p.find (fun _ => true) (.ofText text)

/-- The preferred match of all of `text`. -/
def matchAll (p : Pattern) (text : List Char) : Option Cursor :=
  p.find (fun c => c.rest.isEmpty) (.ofText text)

end Reckon.Pattern
