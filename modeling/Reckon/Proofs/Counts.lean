import Mathlib
import Reckon.Proofs.Variables

/-!
# A value needs one operand more than operators

Elements may stand in any order, so the machine can run out of values at any operator, or have some
left over in the end. What it holds always tells how many operands it read: an operand adds a value
(`operand_length`), an operator waits and each that goes before it takes a value away
(`operator_length`), and where there is a result a single value is left (`finish_length`). So from any
state the elements to come are as many as that takes (`outcome_count`), and no formula with another
number of operands has a value.

The formulas inside of a formula are evaluated on their own, all of them before there is a value
(`Formula.inner_evaluated`), so what holds of a formula that has a value holds at every level.
-/

namespace Reckon

/-- Is it an operator between two operands? -/
def Element.isOperator : Element → Bool
  | operator _ => true
  | _ => false

namespace Formula

def operandCount (f : Formula) : Nat := f.countP Element.isOperand

def operatorCount (f : Formula) : Nat := f.countP Element.isOperator

theorem counts_operand {e : Element} (h : e.isOperand) (f : Formula) :
    operandCount (e :: f) = operandCount f + 1 ∧ operatorCount (e :: f) = operatorCount f := by
  have hnot : ¬ e.isOperator := by
    cases e with
    | negate | operator => cases h
    | number | var | call | group => exact Bool.false_ne_true
  exact ⟨List.countP_cons_of_pos h, List.countP_cons_of_neg hnot⟩

theorem counts_operator (o : Operator) (f : Formula) :
    operandCount (.operator o :: f) = operandCount f ∧
      operatorCount (.operator o :: f) = operatorCount f + 1 :=
  ⟨List.countP_cons_of_neg Bool.false_ne_true, List.countP_cons_of_pos rfl⟩

theorem counts_negate (f : Formula) :
    operandCount (.negate :: f) = operandCount f ∧ operatorCount (.negate :: f) = operatorCount f :=
  ⟨List.countP_cons_of_neg Bool.false_ne_true, List.countP_cons_of_neg Bool.false_ne_true⟩

mutual
def elementInner : Element → List Formula
  | .negate | .operator _ | .number _ | .var _ => []
  | .call _ arguments => argumentInner arguments
  | .group body => body :: inner body
/-- The groups and arguments of a formula, at any depth. -/
def inner : List Element → List Formula
  | [] => []
  | e :: es => elementInner e ++ inner es
def argumentInner : List (List Element) → List Formula
  | [] => []
  | a :: as => (a :: inner a) ++ argumentInner as
end

/-- A formula and those inside of it. -/
def levels (f : Formula) : List Formula := f :: inner f

end Formula

variable {settings : Settings} {c : Context}

/-! ### One level -/

namespace Evaluation

open Precedence

variable {o : Operator} {ps qs : List Operator} {vs ws : List Fraction} {m n : Machine}
  {x : Fraction}

theorem operand_length (m : Machine) (x : Fraction) :
    (m.operand x).values.length = m.values.length + 1 ∧
      (m.operand x).operators.length = m.operators.length :=
  ⟨List.length_cons, rfl⟩

theorem apply_length (h : apply settings o vs = .ok ws) : vs.length = ws.length + 1 := by
  rcases vs with _ | ⟨y, _ | ⟨x, vs⟩⟩
  · cases h
  · cases h
  · obtain ⟨z, -, rfl⟩ := map_eq_ok h
    rfl

theorem unwind_length (h : Machine.unwind settings o ps vs = .ok (qs, ws)) :
    vs.length + qs.length = ws.length + ps.length := by
  induction ps generalizing vs with
  | nil =>
    obtain ⟨rfl, rfl⟩ := Prod.mk.inj (Except.ok.inj h)
    rfl
  | cons p ps ih =>
    rw [Machine.unwind] at h
    split at h
    · split at h
      · cases h
      · next us hus =>
        have hp := apply_length hus
        have hps := ih h
        rw [List.length_cons]
        omega
    · obtain ⟨rfl, rfl⟩ := Prod.mk.inj (Except.ok.inj h)
      rfl

/-- An operator waits, and each that goes before it takes a value away. -/
theorem operator_length (h : m.operator settings o = .ok n) :
    m.values.length + n.operators.length = n.values.length + m.operators.length + 1 := by
  obtain ⟨⟨qs, ws⟩, hu, rfl⟩ := map_eq_ok h
  have hlength := unwind_length hu
  simp only [List.length_cons]
  omega

theorem drain_length (h : Machine.drain settings ps vs = .ok ws) :
    vs.length = ws.length + ps.length := by
  induction ps generalizing vs with
  | nil =>
    obtain rfl := Except.ok.inj h
    rfl
  | cons p ps ih =>
    rw [Machine.drain] at h
    split at h
    · cases h
    · next us hus =>
      have hp := apply_length hus
      have hps := ih h
      rw [List.length_cons]
      omega

theorem finish_length (h : m.finish settings = .ok x) :
    m.values.length = m.operators.length + 1 := by
  rw [Machine.finish] at h
  split at h
  · cases h
  · next hd =>
    have hlength := drain_length hd
    rw [List.length_singleton] at hlength
    omega
  · cases h

/-- What is still to come makes up for what a state holds. -/
theorem outcome_count {f : Formula} (h : outcome settings c f m = .ok x) :
    m.values.length + f.operandCount = m.operators.length + f.operatorCount + 1 := by
  induction f generalizing m with
  | nil =>
    rw [outcome_nil] at h
    exact finish_length h
  | cons e f ih =>
    by_cases he : e.isOperand
    · rw [outcome_operand he] at h
      obtain ⟨v, -, h⟩ := bind_eq_ok h
      obtain ⟨hoperands, hoperators⟩ := Formula.counts_operand he f
      obtain ⟨hvalues, hwaiting⟩ := operand_length m v
      have hrest := ih h
      omega
    · cases e with
      | negate =>
        rw [outcome_negate] at h
        obtain ⟨hoperands, hoperators⟩ := Formula.counts_negate f
        rw [hoperands, hoperators]
        exact ih (m := { m with negated := !m.negated }) h
      | operator o =>
        rw [outcome_operators] at h
        obtain ⟨n, hn, h⟩ := bind_eq_ok h
        obtain ⟨hoperands, hoperators⟩ := Formula.counts_operator o f
        have hstep := operator_length hn
        have hrest := ih h
        omega
      | number | var | call | group => exact absurd rfl he

end Evaluation

namespace Formula

open Evaluation

theorem evaluate_count {f : Formula} {x : Fraction} (h : f.evaluate settings c = .ok x) :
    f.operandCount = f.operatorCount + 1 := by
  have := outcome_count (m := .start) h
  simpa [Machine.start] using this

/-! ### Every level -/

mutual
theorem elementInner_evaluated : ∀ (x : Element) {v : Fraction},
    operandValue settings c x = .ok v →
      ∀ g ∈ elementInner x, ∃ w, Formula.evaluate settings c g = .ok w
  | .negate, _, h | .operator _, _, h => by cases h
  | .number _, _, _ | .var _, _, _ => by
    rw [elementInner]
    exact nofun
  | .call f arguments, v, h => by
    rw [operandValue] at h
    obtain ⟨xs, hxs, -⟩ := bind_eq_ok h
    rw [elementInner]
    exact argumentInner_evaluated arguments hxs
  | .group body, v, h => by
    rw [elementInner, List.forall_mem_cons]
    exact ⟨⟨v, h⟩, inner_evaluated body h⟩
theorem inner_evaluated : ∀ (f : List Element) {m : Machine} {v : Fraction},
    outcome settings c f m = .ok v →
      ∀ g ∈ inner f, ∃ w, Formula.evaluate settings c g = .ok w
  | [], _, _, _ => by
    rw [inner]
    exact nofun
  | x :: f, m, v, h => by
    obtain ⟨hx, n, hf⟩ := outcome_cons_ok h
    rw [inner, List.forall_mem_append]
    refine ⟨?_, inner_evaluated f hf⟩
    by_cases ho : x.isOperand
    · obtain ⟨w, hw⟩ := hx ho
      exact elementInner_evaluated x hw
    · cases x with
      | negate | operator => rw [elementInner]; exact nofun
      | number | var | call | group => exact absurd rfl ho
theorem argumentInner_evaluated : ∀ (as : List (List Element)) {xs : List Fraction},
    argumentValues settings c as = .ok xs →
      ∀ g ∈ argumentInner as, ∃ w, Formula.evaluate settings c g = .ok w
  | [], _, _ => by
    rw [argumentInner]
    exact nofun
  | a :: as, xs, h => by
    rw [argumentValues_cons] at h
    obtain ⟨x, hx, h⟩ := bind_eq_ok h
    obtain ⟨ys, hys, -⟩ := map_eq_ok h
    rw [argumentInner, List.forall_mem_append, List.forall_mem_cons]
    exact ⟨⟨⟨x, hx⟩, inner_evaluated a hx⟩, argumentInner_evaluated as hys⟩
end

/-- A formula has a value only if it has one operand more than operators, and so does every group and
every argument inside of it. With an operand too many or too few at any level there is a fault. -/
theorem evaluate_counted (settings : Settings) (c : Context) (f : Formula) :
    (∀ x, f.evaluate settings c = .ok x →
        ∀ g ∈ f.levels, g.operandCount = g.operatorCount + 1) ∧
      ((∃ g ∈ f.levels, g.operandCount ≠ g.operatorCount + 1) →
        ∃ fault, f.evaluate settings c = .error fault) := by
  have counted (x : Fraction) (h : f.evaluate settings c = .ok x) :
      ∀ g ∈ f.levels, g.operandCount = g.operatorCount + 1 := by
    rw [levels, List.forall_mem_cons]
    refine ⟨evaluate_count h, fun g hg => ?_⟩
    obtain ⟨w, hw⟩ := inner_evaluated f h g hg
    exact evaluate_count hw
  refine ⟨counted, ?_⟩
  rintro ⟨g, hg, hne⟩
  rcases h : f.evaluate settings c with fault | x
  · exact ⟨fault, rfl⟩
  · exact absurd (counted x h g hg) hne

/-- An operator in front of its operands finds both of them in the end. A function that does not look
at its arguments needs them nevertheless. -/
theorem evaluate_counted_any_order :
    let first : Callable := ⟨"first", 1, fun xs => .ok (xs.headD .zero)⟩
    let seven : Callable := ⟨"seven", 1, fun _ => .ok (.ofInt 7)⟩
    let f : Formula := [.operator .subtract, .call first [[.number (.ofInt 5), .negate]],
      .group [.operator .multiply, .var "x", .negate, .var "x"]]
    let g : Formula := [.call seven [[.number (.ofInt 1), .number (.ofInt 2)]]]
    let c : Context := Context.ofList [("x", .ofInt 2)]
    (f.evaluate {} c = .ok (.ofInt 9) ∧ [.number (.ofInt 5), .negate] ∈ f.levels ∧
        f.levels.length = 3 ∧ ∀ h ∈ f.levels, h.operandCount = h.operatorCount + 1) ∧
      (∃ h ∈ g.levels, h.operandCount = 2 ∧ h.operatorCount = 0) ∧
      ∃ fault, g.evaluate {} c = .error fault := by
  intro first seven f g c
  have value : f.evaluate {} c = .ok (.ofInt 9) := by cbv
  have levels_f : f.levels = [f, [.number (.ofInt 5), .negate],
    [.operator .multiply, .var "x", .negate, .var "x"]] := by cbv
  have levels_g : g.levels = [g, [.number (.ofInt 1), .number (.ofInt 2)]] := by cbv
  have surplus : [.number (.ofInt 1), .number (.ofInt 2)] ∈ g.levels := by
    rw [levels_g]
    exact List.mem_cons_of_mem _ (List.mem_singleton_self _)
  refine ⟨⟨value, ?_, ?_, (evaluate_counted {} c f).1 _ value⟩, ⟨_, surplus, rfl, rfl⟩,
    (evaluate_counted {} c g).2 ⟨_, surplus, ?_⟩⟩
  · rw [levels_f]
    simp
  · rw [levels_f]
    rfl
  · decide

end Formula

end Reckon
