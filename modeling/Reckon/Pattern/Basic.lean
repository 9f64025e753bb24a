/-!
# Patterns

Regular patterns over characters, with numbered capture groups. Choice prefers its left side and
repetition prefers more, so of all the ways a pattern can match at one place there is a first one.
-/

namespace Reckon

/-- A set of characters: closed ranges, or all the rest. -/
structure CharSet where
  negated : Bool
  ranges : List (Char × Char)
deriving DecidableEq, Repr

namespace CharSet

def single (c : Char) : CharSet := ⟨false, [(c, c)]⟩

/-- Every character but the line feed. -/
def anyOnLine : CharSet := ⟨true, [('\n', '\n')]⟩

def mem (s : CharSet) (c : Char) : Bool :=
  (s.ranges.any fun r => r.1 ≤ c && c ≤ r.2) != s.negated

/-- A set whose ranges have one character each. -/
theorem mem_singles (cs : List Char) (x : Char) :
    (⟨false, cs.map fun c => (c, c)⟩ : CharSet).mem x ↔ x ∈ cs := by
  simp only [mem, Bool.bne_false, List.any_map, List.any_eq_true, Function.comp_apply,
    Bool.and_eq_true, decide_eq_true_eq]
  constructor
  · rintro ⟨c, hc, h⟩
    exact Char.le_antisymm h.1 h.2 ▸ hc
  · exact fun h => ⟨x, h, Char.le_refl x, Char.le_refl x⟩

end CharSet

inductive Pattern
  | empty
  | set (s : CharSet)
  | textStart
  | textEnd
  | cat (p q : Pattern)
  | alt (p q : Pattern)
  | star (p : Pattern)
  | plus (p : Pattern)
  | opt (p : Pattern)
  | group (index : Nat) (p : Pattern)
deriving DecidableEq, Repr

namespace Pattern

/-- The indices of the capture groups, in the order in which they open. -/
def groups : Pattern → List Nat
  | empty | set _ | textStart | textEnd => []
  | cat p q | alt p q => p.groups ++ q.groups
  | star p | plus p | opt p => p.groups
  | group i p => i :: p.groups

end Pattern

end Reckon
