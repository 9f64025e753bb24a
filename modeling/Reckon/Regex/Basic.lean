/-!
# Regular expressions

The tree of a regular expression over atoms of any kind, and what it means. An atom reads a character
or looks at the text around a place. Between what stands before and what stands after, an expression
matches some texts (`Regex.Matches`); it is found in a text if it matches a stretch of it
(`Regex.Finds`).

Which of several matches is preferred is no part of a tree, since it does not decide whether there is
one.
-/

namespace Reckon

/-- What an atom does at a place. -/
inductive Sense
  /-- It reads one character of a class. -/
  | reads (s : Char → Prop)
  /-- It reads nothing and says whether it may stand between two texts. -/
  | looks (p : (before after : List Char) → Prop)

def Sense.Holds : Sense → (before w after : List Char) → Prop
  | reads s, _, w, _ => ∃ x, s x ∧ w = [x]
  | looks p, before, w, after => w = [] ∧ p before after

inductive Regex (α : Type)
  | empty
  | atom (a : α)
  | cat (p q : Regex α)
  | alt (p q : Regex α)
  /-- At least `least` rounds, and at most `most` if there is such a bound. -/
  | rep (least : Nat) (most : Option Nat) (p : Regex α)
  /-- A group, which captures what it matches or only keeps its body together. -/
  | group (captures : Bool) (p : Regex α)
deriving DecidableEq, Repr

namespace Regex

variable {α : Type}

/-- One after the other. -/
def sequence : List (Regex α) → Regex α
  | [] => empty
  | [p] => p
  | p :: ps => cat p (sequence ps)

/-- One of several. -/
def choice : List (Regex α) → Regex α
  | [] => empty
  | [p] => p
  | p :: ps => alt p (choice ps)

/-! ### Meaning -/

/-- `k` matches in a row. -/
def Times (matched : (before w after : List Char) → Prop) : Nat → (before w after : List Char) → Prop
  | 0, _, w, _ => w = []
  | k + 1, before, w, after => ∃ u v, w = u ++ v ∧ matched before u (v ++ after) ∧
      Times matched k (before ++ u) v after

/-- Does an expression match `w` where it stands between `before` and `after`? -/
def Matches (sense : α → Sense) : Regex α → (before w after : List Char) → Prop
  | empty, _, w, _ => w = []
  | atom a, before, w, after => (sense a).Holds before w after
  | cat p q, before, w, after => ∃ u v, w = u ++ v ∧ p.Matches sense before u (v ++ after) ∧
      q.Matches sense (before ++ u) v after
  | alt p q, before, w, after => p.Matches sense before w after ∨ q.Matches sense before w after
  | rep least most p, before, w, after =>
    ∃ k, least ≤ k ∧ (∀ m ∈ most, k ≤ m) ∧ Times (p.Matches sense) k before w after
  | group _ p, before, w, after => p.Matches sense before w after

/-- Is there a match somewhere in `text`? -/
def Finds (sense : α → Sense) (p : Regex α) (text : List Char) : Prop :=
  ∃ before w after, text = before ++ (w ++ after) ∧ p.Matches sense before w after

/-- Does nothing in an expression look at the text around it? -/
def Free (sense : α → Sense) : Regex α → Prop
  | empty => True
  | atom a => ∃ s, sense a = .reads s
  | cat p q | alt p q => p.Free sense ∧ q.Free sense
  | rep _ _ p | group _ p => p.Free sense

/-! ### Capture groups -/

/-- How many groups capture. -/
def captures : Regex α → Nat
  | empty | atom _ => 0
  | cat p q | alt p q => p.captures + q.captures
  | rep _ _ p => p.captures
  | group true p => p.captures + 1
  | group false p => p.captures

end Regex

/-- A group with the groups inside of it. -/
inductive Nest
  | mk (inside : List Nest)

/-- A group under its number, with the groups inside of it. -/
inductive GroupTree
  | mk (index : Nat) (inside : List GroupTree)

namespace Nest

mutual
/-- How many groups there are, the outer one included. -/
def size : Nest → Nat
  | mk inside => sizes inside + 1
def sizes : List Nest → Nat
  | [] => 0
  | t :: ts => t.size + sizes ts
end

mutual
/-- Numbers groups in the order in which they open, where `n` groups open before them. -/
def number : Nest → (n : Nat) → GroupTree
  | mk inside, n => .mk (n + 1) (numberAll inside (n + 1))
def numberAll : List Nest → (n : Nat) → List GroupTree
  | [], _ => []
  | t :: ts, n => t.number n :: numberAll ts (n + t.size)
end

theorem sizes_append (ts us : List Nest) : sizes (ts ++ us) = sizes ts + sizes us := by
  induction ts with
  | nil => rw [List.nil_append, sizes, Nat.zero_add]
  | cons t ts ih => rw [List.cons_append, sizes, sizes, ih, Nat.add_assoc]

end Nest

namespace Regex

variable {α : Type}

/-- The groups that capture, from left to right. -/
def nests : Regex α → List Nest
  | empty | atom _ => []
  | cat p q | alt p q => p.nests ++ q.nests
  | rep _ _ p => p.nests
  | group true p => [.mk p.nests]
  | group false p => p.nests

/-- The capture groups, numbered from 1 in the order in which they open. -/
def groupTrees (p : Regex α) : List GroupTree := Nest.numberAll p.nests 0

theorem sizes_nests (p : Regex α) : Nest.sizes p.nests = p.captures := by
  induction p with
  | empty | atom => rw [nests, Nest.sizes, captures]
  | cat p q hp hq | alt p q hp hq => rw [nests, Nest.sizes_append, hp, hq, captures]
  | rep _ _ p hp => exact hp
  | group captures p hp =>
    cases captures with
    | true => rw [nests, Nest.sizes, Nest.size, Nest.sizes, hp, Regex.captures, Nat.add_zero]
    | false => exact hp

theorem nests_sequence (ps : List (Regex α)) : (sequence ps).nests = ps.flatMap nests := by
  induction ps using sequence.induct with
  | case1 => rfl
  | case2 p => rw [sequence, List.flatMap_singleton]
  | case3 p ps hps ih => rw [sequence.eq_3 p ps hps, nests, ih, List.flatMap_cons]

theorem nests_choice (ps : List (Regex α)) : (choice ps).nests = ps.flatMap nests := by
  induction ps using choice.induct with
  | case1 => rfl
  | case2 p => rw [choice, List.flatMap_singleton]
  | case3 p ps hps ih => rw [choice.eq_3 p ps hps, nests, ih, List.flatMap_cons]

end Regex

end Reckon
