/-!
# Sets of names

A set of names is a list in increasing order of the names' characters, each name once.
-/

namespace Reckon

/-- Adds a name to a sorted list of names that holds each once. -/
def insertName (name : String) : List String → List String
  | [] => [name]
  | n :: ns =>
    if name < n then name :: n :: ns
    else if name = n then n :: ns
    else n :: insertName name ns

/-- The names of a list, sorted, each once. -/
def sortedNames (names : List String) : List String := names.foldr insertName []

theorem mem_insertName {x name : String} {names : List String} :
    x ∈ insertName name names ↔ x = name ∨ x ∈ names := by
  induction names with
  | nil => rw [insertName, List.mem_singleton]; simp
  | cons n ns ih =>
    rw [insertName]
    split
    · exact List.mem_cons
    · split
      · next h => simp [h]
      · rw [List.mem_cons, List.mem_cons, ih, or_left_comm]

theorem mem_sortedNames {x : String} {names : List String} : x ∈ sortedNames names ↔ x ∈ names := by
  induction names with
  | nil => exact Iff.rfl
  | cons name names ih =>
    rw [List.mem_cons, ← ih]
    exact mem_insertName

end Reckon
