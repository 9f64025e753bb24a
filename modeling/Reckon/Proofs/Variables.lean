import Mathlib
import Reckon.Proofs.Operands

/-!
# A formula depends on its variables

Contexts with the same values for the variables of a formula give it the same outcome
(`forall₂_of_agree`), and none of its variables is passed over: each operand is asked for its value
before there is an outcome, so a formula that has a value has one for each of its operands, and a
variable without a value is that of some operand (`Evaluation.outcome_cons_ok`,
`Evaluation.outcome_cons_unknown`). An operator has no part in this: its faults name no variable.
-/

namespace Reckon

open Evaluation Precedence

variable {settings : Settings} {c d : Context} {name : String}

/-! ### One element -/

namespace Evaluation

variable {o : Operator} {m : Machine} {x : Element} {f : Formula} {v : Fraction}

theorem apply_ne_unknown (o : Operator) (values : List Fraction) :
    apply settings o values ≠ .error (.unknownVariable name) := by
  rcases values with _ | ⟨y, _ | ⟨x, values⟩⟩
  · exact nofun
  · exact nofun
  · rw [apply_eq]
    intro h
    rcases hz : combine settings o x y with fault | z
    · rw [hz] at h
      obtain rfl := Except.error.inj h
      cases ofOperator_combine hz
    · rw [hz] at h
      cases h

theorem unwind_ne_unknown (o : Operator) (ps : List Operator) (values : List Fraction) :
    Machine.unwind settings o ps values ≠ .error (.unknownVariable name) := by
  induction ps generalizing values with
  | nil => exact nofun
  | cons p ps ih =>
    rw [Machine.unwind]
    split
    · split
      · next h =>
        intro h'
        obtain rfl := Except.error.inj h'
        exact apply_ne_unknown p values h
      · exact ih _
    · intro h'
      cases h'

theorem operator_ne_unknown (o : Operator) (m : Machine) :
    m.operator settings o ≠ .error (.unknownVariable name) := by
  rw [Machine.operator]
  rcases h : Machine.unwind settings o m.operators m.values with fault | y
  · intro h'
    obtain rfl := Except.error.inj h'
    exact unwind_ne_unknown o _ _ h
  · intro h'
    cases h'

theorem drain_ne_unknown (ps : List Operator) (values : List Fraction) :
    Machine.drain settings ps values ≠ .error (.unknownVariable name) := by
  induction ps generalizing values with
  | nil => exact nofun
  | cons p ps ih =>
    rw [Machine.drain]
    split
    · next h =>
      intro h'
      obtain rfl := Except.error.inj h'
      exact apply_ne_unknown p values h
    · exact ih _

theorem finish_ne_unknown (m : Machine) : m.finish settings ≠ .error (.unknownVariable name) := by
  rw [Machine.finish]
  split
  · next h =>
    intro h'
    obtain rfl := Except.error.inj h'
    exact drain_ne_unknown _ _ h
  · intro h'
    cases h'
  · intro h'
    cases h'

/-- If there is a value in the end, the first element has one, and so has the rest in some state. -/
theorem outcome_cons_ok (h : outcome settings c (x :: f) m = .ok v) :
    (x.isOperand → ∃ w, operandValue settings c x = .ok w) ∧
      ∃ n, outcome settings c f n = .ok v := by
  by_cases hx : x.isOperand
  · rw [outcome_operand hx] at h
    obtain ⟨w, hw, h⟩ := bind_eq_ok h
    exact ⟨fun _ => ⟨w, hw⟩, _, h⟩
  · refine ⟨fun h => absurd h hx, ?_⟩
    cases x with
    | negate => exact ⟨_, outcome_negate f m ▸ h⟩
    | operator o =>
      rw [outcome_operators] at h
      obtain ⟨n, -, h⟩ := bind_eq_ok h
      exact ⟨n, h⟩
    | number | var | call | group => exact absurd rfl hx

/-- If a variable has no value, it is one of the first element, or of the rest in some state. -/
theorem outcome_cons_unknown (h : outcome settings c (x :: f) m = .error (.unknownVariable name)) :
    (x.isOperand ∧ operandValue settings c x = .error (.unknownVariable name)) ∨
      ∃ n, outcome settings c f n = .error (.unknownVariable name) := by
  by_cases hx : x.isOperand
  · rw [outcome_operand hx] at h
    rcases bind_eq_error h with h | ⟨w, -, h⟩
    · exact .inl ⟨hx, h⟩
    · exact .inr ⟨_, h⟩
  · refine .inr ?_
    cases x with
    | negate => exact ⟨_, outcome_negate f m ▸ h⟩
    | operator o =>
      rw [outcome_operators] at h
      rcases bind_eq_error h with h | ⟨n, -, h⟩
      · exact absurd h (operator_ne_unknown o m)
      · exact ⟨n, h⟩
    | number | var | call | group => exact absurd rfl hx

end Evaluation

namespace Formula

/-! ### The same values -/

mutual
theorem corresponds_of_agree : ∀ x : Element, (∀ name ∈ elementNames x, c name = d name) →
    Corresponds settings c d x x
  | .negate, _ => .negate
  | .operator _, _ => .operator
  | .number _, _ => .number rfl
  | .var name, h => by
    refine .operand rfl rfl ?_
    rw [operandValue, operandValue, h name (by rw [elementNames]; exact List.mem_singleton_self name)]
  | .call _ arguments, h => by
    rw [elementNames] at h
    exact .call (argumentValues_of_agree arguments h)
  | .group body, h => by
    rw [elementNames] at h
    exact .group (evaluate_congr (forall₂_of_agree body h))
theorem forall₂_of_agree : ∀ f : List Element, (∀ name ∈ occurrences f, c name = d name) →
    List.Forall₂ (Corresponds settings c d) f f
  | [], _ => .nil
  | x :: f, h => by
    rw [occurrences, List.forall_mem_append] at h
    exact .cons (corresponds_of_agree x h.1) (forall₂_of_agree f h.2)
theorem argumentValues_of_agree : ∀ as : List (List Element),
    (∀ name ∈ argumentNames as, c name = d name) →
      argumentValues settings c as = argumentValues settings d as
  | [], _ => by rw [argumentValues, argumentValues]
  | a :: as, h => by
    rw [argumentNames, List.forall_mem_append] at h
    exact argumentValues_congr (forall₂_of_agree a h.1) (argumentValues_of_agree as h.2)
end

/-! ### A value needs all of them -/

mutual
theorem elementNames_bound : ∀ (x : Element) {v : Fraction}, operandValue settings c x = .ok v →
    ∀ name ∈ elementNames x, (c name).isSome
  | .negate, _, h | .operator _, _, h => by cases h
  | .number _, _, _ => by
    rw [elementNames]
    exact nofun
  | .var name, v, h => by
    rw [elementNames, List.forall_mem_singleton]
    rw [operandValue] at h
    split at h
    · cases h
    · next hx => rw [hx]; rfl
  | .call f arguments, v, h => by
    rw [operandValue] at h
    obtain ⟨xs, hxs, -⟩ := bind_eq_ok h
    rw [elementNames]
    exact argumentNames_bound arguments hxs
  | .group body, v, h => by
    rw [elementNames]
    exact occurrences_bound body h
theorem occurrences_bound : ∀ (f : List Element) {m : Machine} {v : Fraction},
    outcome settings c f m = .ok v → ∀ name ∈ occurrences f, (c name).isSome
  | [], _, _, _ => by
    rw [occurrences]
    exact nofun
  | x :: f, m, v, h => by
    obtain ⟨hx, n, hf⟩ := outcome_cons_ok h
    rw [occurrences, List.forall_mem_append]
    refine ⟨?_, occurrences_bound f hf⟩
    by_cases ho : x.isOperand
    · obtain ⟨w, hw⟩ := hx ho
      exact elementNames_bound x hw
    · cases x with
      | negate | operator => rw [elementNames]; exact nofun
      | number | var | call | group => exact absurd rfl ho
theorem argumentNames_bound : ∀ (as : List (List Element)) {xs : List Fraction},
    argumentValues settings c as = .ok xs → ∀ name ∈ argumentNames as, (c name).isSome
  | [], _, _ => by
    rw [argumentNames]
    exact nofun
  | a :: as, xs, h => by
    rw [argumentValues_cons] at h
    obtain ⟨x, hx, h⟩ := bind_eq_ok h
    obtain ⟨ys, hys, -⟩ := map_eq_ok h
    rw [argumentNames, List.forall_mem_append]
    exact ⟨occurrences_bound a hx, argumentNames_bound as hys⟩
end

/-! ### An unknown variable is one of them -/

mutual
theorem elementNames_unknown : ∀ (x : Element),
    operandValue settings c x = .error (.unknownVariable name) →
      name ∈ elementNames x ∧ c name = none
  | .negate, h | .operator _, h | .number _, h => by cases h
  | .var n, h => by
    rw [operandValue] at h
    split at h
    · next hn =>
      obtain rfl := EvalFault.unknownVariable.inj (Except.error.inj h)
      rw [elementNames]
      exact ⟨List.mem_singleton_self n, hn⟩
    · cases h
  | .call f arguments, h => by
    rw [operandValue] at h
    rw [elementNames]
    rcases bind_eq_error h with h | ⟨xs, -, h⟩
    · exact argumentNames_unknown arguments h
    · obtain ⟨fault, -, h⟩ := mapError_eq_error h
      cases h
  | .group body, h => by
    rw [elementNames]
    exact occurrences_unknown body h
theorem occurrences_unknown : ∀ (f : List Element) {m : Machine},
    outcome settings c f m = .error (.unknownVariable name) → name ∈ occurrences f ∧ c name = none
  | [], m, h => by
    rw [outcome_nil] at h
    exact absurd h (finish_ne_unknown m)
  | x :: f, m, h => by
    rw [occurrences, List.mem_append]
    rcases outcome_cons_unknown h with ⟨-, h⟩ | ⟨n, h⟩
    · obtain ⟨hm, hn⟩ := elementNames_unknown x h
      exact ⟨.inl hm, hn⟩
    · obtain ⟨hm, hn⟩ := occurrences_unknown f h
      exact ⟨.inr hm, hn⟩
theorem argumentNames_unknown : ∀ as : List (List Element),
    argumentValues settings c as = .error (.unknownVariable name) →
      name ∈ argumentNames as ∧ c name = none
  | [], h => by
    rw [argumentValues] at h
    cases h
  | a :: as, h => by
    rw [argumentValues_cons] at h
    rw [argumentNames, List.mem_append]
    rcases bind_eq_error h with h | ⟨x, -, h⟩
    · obtain ⟨hm, hn⟩ := occurrences_unknown a h
      exact ⟨.inl hm, hn⟩
    · rcases has : argumentValues settings c as with fault | xs
      · rw [has] at h
        obtain rfl := Except.error.inj h
        obtain ⟨hm, hn⟩ := argumentNames_unknown as has
        exact ⟨.inr hm, hn⟩
      · rw [has] at h
        cases h
end

/-- What a formula depends on are its variables: contexts that agree on them give the same outcome,
a value needs a value for each of them, and a variable that is reported as unknown is one of them
and has no value. -/
theorem evaluate_variableNames (settings : Settings) (f : Formula) :
    (∀ c d : Context, (∀ name ∈ f.variableNames, c name = d name) →
        f.evaluate settings c = f.evaluate settings d) ∧
      ∀ c : Context,
        (∀ v, f.evaluate settings c = .ok v → ∀ name ∈ f.variableNames, (c name).isSome) ∧
          ∀ name, f.evaluate settings c = .error (.unknownVariable name) →
            name ∈ f.variableNames ∧ c name = none := by
  simp only [variableNames, mem_sortedNames]
  refine ⟨fun c d h => evaluate_congr (forall₂_of_agree f h), fun c => ⟨fun v h => ?_, fun name h => ?_⟩⟩
  · exact occurrences_bound f h
  · exact occurrences_unknown f h

/-- Only the group has the variable `x` of `y - (-x)`. -/
theorem evaluate_variableNames_group :
    let f : Formula := [.var "y", .operator .subtract, .group [.negate, .var "x"]]
    let c : Context := Context.ofList [("x", .ofInt 1), ("y", .ofInt 2)]
    f.evaluate {} c = .ok (.ofInt 3) ∧ (c "y").isSome ∧
      f.evaluate {} (Function.update c "x" none) = .error (.unknownVariable "x") ∧
      "x" ∈ f.variableNames ∧
      f.evaluate {} c = f.evaluate {} (Function.update c "z" (some (.ofInt 5))) := by
  intro f c
  have names : f.variableNames = ["x", "y"] := by cbv
  have value : f.evaluate {} c = .ok (.ofInt 3) := by cbv
  have unknown : f.evaluate {} (Function.update c "x" none) = .error (.unknownVariable "x") := by cbv
  obtain ⟨same, needs⟩ := evaluate_variableNames {} f
  have bound : (c "y").isSome := (needs c).1 _ value "y" (by rw [names]; decide)
  have inside : "x" ∈ f.variableNames := ((needs _).2 _ unknown).1
  refine ⟨value, bound, unknown, inside, same _ _ fun name h => (Function.update_of_ne ?_ _ _).symm⟩
  rintro rfl
  rw [names] at h
  exact absurd h (by decide)

end Formula

end Reckon
