/-!
# Named parts

A capture group of a grammar has a name and may hold further named groups. A part is looked up by
the chain of names that leads to it, never by its number.
-/

namespace Reckon

/-- What a capture group stands for. -/
inductive PartName
  /-- The signed digits before the point. -/
  | integerPart
  /-- The fraction digits outside of the repeating block. -/
  | plainFraction
  | repeatingFraction
  | exponent
  /-- The optional fraction of a mantissa, point included. -/
  | mantissaFraction
  | integer
  | decimal
  | repeatingDecimal
  | scientific
  | repeatingScientific
  | number
  | negation
  | operand
  /-- The placeholder of a bare group. -/
  | subExpression
  | functionCall
  | functionName
  /-- One placeholder for each group of arguments. -/
  | functionArguments
  | variableName
  | unaryOperation
  | binaryOperator
  | binaryOperation
deriving DecidableEq, Repr

/-- A named capture group with the named groups inside of it. -/
structure Part where
  name : PartName
  group : Nat
  children : List Part
deriving Repr

namespace Part

mutual
def decEq : (p q : Part) → Decidable (p = q)
  | ⟨m, i, ps⟩, ⟨n, j, qs⟩ =>
    if hn : m = n then
      if hg : i = j then
        match decEqs ps qs with
        | isTrue h => isTrue (by rw [hn, hg, h])
        | isFalse h => isFalse fun e => h (by injection e)
      else isFalse fun e => hg (by injection e)
    else isFalse fun e => hn (by injection e)
def decEqs : (ps qs : List Part) → Decidable (ps = qs)
  | [], [] => isTrue rfl
  | [], _ :: _ => isFalse nofun
  | _ :: _, [] => isFalse nofun
  | p :: ps, q :: qs =>
    match decEq p q, decEqs ps qs with
    | isTrue hp, isTrue h => isTrue (by rw [hp, h])
    | isFalse hp, _ => isFalse fun e => hp (List.cons.inj e).1
    | _, isFalse h => isFalse fun e => h (List.cons.inj e).2
end

instance : DecidableEq Part := decEq

mutual
/-- The number of named groups, this one included. -/
def size : Part → Nat
  | ⟨_, _, children⟩ => 1 + sizes children
/-- The number of named groups of a list of parts. -/
def sizes : List Part → Nat
  | [] => 0
  | p :: ps => p.size + sizes ps
end

mutual
/-- The same part where `offset` groups open before it. -/
def shift (offset : Nat) : Part → Part
  | ⟨name, group, children⟩ => ⟨name, group + offset, shifts offset children⟩
def shifts (offset : Nat) : List Part → List Part
  | [] => []
  | p :: ps => p.shift offset :: shifts offset ps
end

mutual
/-- The part and all inside of it, outer ones first. -/
def preorder : Part → List Part
  | ⟨name, group, children⟩ => ⟨name, group, children⟩ :: preorders children
def preorders : List Part → List Part
  | [] => []
  | p :: ps => p.preorder ++ preorders ps
end

/-- The first part that a chain of names leads to. -/
def find? : List PartName → List Part → Option Part
  | [], _ => none
  | name :: names, parts =>
    (parts.filter fun p => p.name = name).findSome? fun p =>
      if names.isEmpty then some p else find? names p.children

end Part

end Reckon
