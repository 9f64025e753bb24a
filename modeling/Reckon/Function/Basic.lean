import Reckon.Fraction.Basic
import Reckon.Names
import Reckon.Text.Quoted

/-!
# Functions by name

A table registers functions under names, each for some numbers of arguments. A look-up takes the
earliest registration of the name that accepts the number, so a later one never changes an answer.
-/

namespace Reckon

/-- What a function computes. It may fail, also because of the number of its arguments. -/
abbrev Operation := List Fraction → Except ArithmeticFault Fraction

/-- The numbers of arguments a function accepts. -/
inductive Arity
  | exactly (n : Nat)
  | atLeast (n : Nat)
  | range (least most : Nat)
deriving DecidableEq, Repr

def Arity.accepts : Arity → Nat → Bool
  | exactly n, count => count == n
  | atLeast n, count => n ≤ count
  | range least most, count => least ≤ count && count ≤ most

/-- A function that was looked up for a number of arguments. -/
structure Callable where
  name : String
  arity : Nat
  operation : Operation

/-- Finds the function for a name and a number of arguments. -/
abbrev Lookup := String → Nat → Option Callable

/-- An operation for some numbers of arguments. -/
structure Overload where
  arity : Arity
  operation : Operation

/-- The overloads of each name, the earliest first. No name is listed twice. -/
structure FunctionTable where
  entries : List (String × List Overload)

namespace FunctionTable

def empty : FunctionTable := ⟨[]⟩

/-- Adds an overload behind those of its name. -/
def add (name : String) (o : Overload) :
    List (String × List Overload) → List (String × List Overload)
  | [] => [(name, [o])]
  | (n, os) :: rest => if n = name then (n, os ++ [o]) :: rest else (n, os) :: add name o rest

def register (t : FunctionTable) (name : String) (arity : Arity) (operation : Operation) :
    FunctionTable :=
  ⟨add name ⟨arity, operation⟩ t.entries⟩

def contains (t : FunctionTable) (name : String) : Bool := (t.entries.lookup name).isSome

def overloads (t : FunctionTable) (name : String) : List Overload := (t.entries.lookup name).getD []

def lookup (t : FunctionTable) : Lookup := fun name count =>
  ((t.overloads name).find? fun o => o.arity.accepts count).map fun o => ⟨name, count, o.operation⟩

theorem lookup_eq_some {t : FunctionTable} {name : String} {count : Nat} {f : Callable}
    (h : t.lookup name count = some f) : f.name = name ∧ f.arity = count := by
  obtain ⟨o, -, rfl⟩ := Option.map_eq_some_iff.mp h
  exact ⟨rfl, rfl⟩

end FunctionTable

def FunctionTable.names (t : FunctionTable) : List String :=
  sortedNames (t.entries.map Prod.fst)

/-! ### Descriptions -/

def FunctionTable.describe (t : FunctionTable) : String :=
  "FunctionTable \x7b aliases: [" ++ ", ".intercalate (t.names.map quotedName) ++ "] \x7d"

def Callable.describe (f : Callable) : String :=
  "FunctionHandle \x7b alias: " ++ quotedName f.name ++ ", arity: " ++ f.arity.repr ++ " \x7d"

end Reckon
