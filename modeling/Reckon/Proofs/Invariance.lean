import Mathlib
import Reckon.Proofs.Operands

/-!
# What evaluation does not depend on

A variable can be replaced by a formula that has its value (`Formula.evaluate_substitute`), and numbers
can be held as other pairs (`Formula.evaluate_of_alike`). Either way the operands keep their numbers,
at each level by induction on the elements, and so does the formula.
-/

namespace Reckon

open Evaluation

variable {settings : Settings} {c d : Context}

/-! ### Substitution -/

section
variable {name : String} {g : Formula} {v : Fraction}

mutual
theorem corresponds_substitute (h : g.evaluate settings c = .ok v) : ∀ x : Element,
    Corresponds settings c (Function.update c name (some v))
      (Formula.substituteElement name g x) x
  | .negate => .negate
  | .operator _ => .operator
  | .number _ => .number rfl
  | .var n => by
    rw [Formula.substituteElement]
    by_cases hn : n = name
    · subst hn
      rw [if_pos rfl]
      refine .operand rfl rfl ?_
      rw [operandValue, operandValue, Function.update_self, h]
    · rw [if_neg hn]
      refine .operand rfl rfl ?_
      rw [operandValue, operandValue, Function.update_of_ne hn]
  | .call _ arguments => by
    rw [Formula.substituteElement]
    exact .call (argumentValues_substitute h arguments)
  | .group body => by
    rw [Formula.substituteElement]
    exact .group (Formula.evaluate_congr (forall₂_substitute h body))
theorem forall₂_substitute (h : g.evaluate settings c = .ok v) : ∀ f : List Element,
    List.Forall₂ (Corresponds settings c (Function.update c name (some v)))
      (Formula.substitute name g f) f
  | [] => by
    rw [Formula.substitute]
    exact .nil
  | x :: f => by
    rw [Formula.substitute]
    exact .cons (corresponds_substitute h x) (forall₂_substitute h f)
theorem argumentValues_substitute (h : g.evaluate settings c = .ok v) : ∀ as : List (List Element),
    argumentValues settings c (Formula.substituteArguments name g as) =
      argumentValues settings (Function.update c name (some v)) as
  | [] => by rw [Formula.substituteArguments, argumentValues, argumentValues]
  | a :: as => by
    rw [Formula.substituteArguments]
    exact argumentValues_congr (forall₂_substitute h a) (argumentValues_substitute h as)
end

end

/-- With a formula in place of a variable, a formula has the value that it has where the variable has
the value of that formula, or the same fault. -/
theorem Formula.evaluate_substitute {g : Formula} {v : Fraction}
    (h : g.evaluate settings c = .ok v) (name : String) (f : Formula) :
    Formula.evaluate settings c (substitute name g f) =
      f.evaluate settings (Function.update c name (some v)) :=
  evaluate_congr (forall₂_substitute h f)

/-- `-x^2` with `1/3` in place of `x`, where the value of a group is negated and not its parts. -/
theorem Formula.evaluate_substitute_third :
    Formula.evaluate {} (fun _ => none) [.number (.ofInt 1), .operator .divide, .number (.ofInt 3)] =
        .ok ⟨1, 3, by decide⟩ ∧
      Formula.evaluate {} (fun _ => none)
          (substitute "x" [.number (.ofInt 1), .operator .divide, .number (.ofInt 3)]
            [.negate, .var "x", .operator .power, .number (.ofInt 2)]) =
        Formula.evaluate {} (Function.update (fun _ => none) "x" (some ⟨1, 3, by decide⟩))
          [.negate, .var "x", .operator .power, .number (.ofInt 2)] := by
  have third : Formula.evaluate {} (fun _ => none)
      [.number (.ofInt 1), .operator .divide, .number (.ofInt 3)] = .ok ⟨1, 3, by decide⟩ := by
    cbv
  exact ⟨third, evaluate_substitute third "x" _⟩

/-! ### Pairs -/

mutual
theorem corresponds_of_alike (hc : c.Alike d) : ∀ {x y : Element}, Element.Alike x y →
    Corresponds settings c d x y
  | _, _, .negate => .negate
  | _, _, .operator => .operator
  | _, _, .number h => .number (Fraction.same_iff.mp h)
  | _, _, @Element.Alike.var name => by
    refine .operand rfl rfl ?_
    rw [operandValue, operandValue]
    have h := hc name
    generalize c name = x at h ⊢
    generalize d name = y at h ⊢
    cases h with
    | none => rfl
    | some h => exact congrArg Except.ok (Fraction.same_iff.mp h)
  | _, _, .call h => .call (argumentValues_of_alike hc h)
  | _, _, .group h => .group (Formula.evaluate_congr (forall₂_of_alike hc h))
theorem forall₂_of_alike (hc : c.Alike d) : ∀ {f g : List Element}, Formula.Alike f g →
    List.Forall₂ (Corresponds settings c d) f g
  | _, _, .nil => .nil
  | _, _, .cons hx h => .cons (corresponds_of_alike hc hx) (forall₂_of_alike hc h)
theorem argumentValues_of_alike (hc : c.Alike d) : ∀ {as bs : List (List Element)},
    Formula.AlikeAll as bs → argumentValues settings c as = argumentValues settings d bs
  | _, _, .nil => by rw [argumentValues, argumentValues]
  | _, _, .cons ha h => argumentValues_congr (forall₂_of_alike hc ha) (argumentValues_of_alike hc h)
end

theorem Evaluation.coprime_finish {m : Machine} {x : Fraction} (h : m.finish settings = .ok x) :
    x.num.natAbs.Coprime x.den := by
  rw [Machine.finish] at h
  split at h
  · cases h
  · obtain rfl := Except.ok.inj h
    exact Fraction.coprime_reduce _
  · cases h

theorem Formula.coprime_evaluate {f : Formula} {x : Fraction} (h : f.evaluate settings c = .ok x) :
    x.num.natAbs.Coprime x.den := by
  rw [evaluate] at h
  split at h
  · cases h
  · exact coprime_finish h

/-- The outcome of a formula depends on the numbers in it and in the context and not on the pairs they
are held as, and a value is in lowest terms. -/
theorem Formula.evaluate_of_alike (settings : Settings) {f g : Formula} (hf : Formula.Alike f g)
    (hc : c.Alike d) :
    f.evaluate settings c = g.evaluate settings d ∧
      ∀ x, f.evaluate settings c = .ok x → 0 < x.den ∧ x.num.natAbs.Coprime x.den :=
  ⟨evaluate_congr (forall₂_of_alike hc hf), fun x h => ⟨x.den_pos, coprime_evaluate h⟩⟩

/-- An exponent of `4/2` is whole. -/
theorem Formula.evaluate_of_alike_exponent :
    Formula.Alike [.var "x", .operator .power, .number ⟨4, 2, by decide⟩]
        [.var "x", .operator .power, .number (.ofInt 2)] ∧
      Context.Alike (fun _ => some ⟨-3, 6, by decide⟩) (fun _ => some ⟨-1, 2, by decide⟩) ∧
      Formula.evaluate {} (fun _ => some ⟨-3, 6, by decide⟩)
          [.var "x", .operator .power, .number ⟨4, 2, by decide⟩] =
        Formula.evaluate {} (fun _ => some ⟨-1, 2, by decide⟩)
          [.var "x", .operator .power, .number (.ofInt 2)] ∧
      ∀ x, Formula.evaluate {} (fun _ => some ⟨-3, 6, by decide⟩)
          [.var "x", .operator .power, .number ⟨4, 2, by decide⟩] = .ok x →
        0 < x.den ∧ x.num.natAbs.Coprime x.den := by
  have formulas : Formula.Alike [.var "x", .operator .power, .number ⟨4, 2, by decide⟩]
      [.var "x", .operator .power, .number (.ofInt 2)] :=
    .cons .var (.cons .operator (.cons (.number (by decide)) .nil))
  have contexts : Context.Alike (fun _ => some ⟨-3, 6, by decide⟩)
      (fun _ => some ⟨-1, 2, by decide⟩) := fun _ => .some (by decide)
  exact ⟨formulas, contexts, evaluate_of_alike {} formulas contexts⟩

end Reckon
