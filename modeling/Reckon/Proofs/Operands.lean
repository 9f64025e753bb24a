import Mathlib
import Reckon.Proofs.Precedence
import Reckon.Proofs.Rational

/-!
# A formula is evaluated by its operands

What an operator gives depends on the numbers of its operands and not on the pairs they are held as
(`Precedence.combine_congr`). So two machine states that denote the same (`Machine.denoted`) have the
same outcome in front of formulas whose operands have the same numbers as values, or the same faults
(`outcome_congr`). The formulas may differ in everything else, and so may their contexts: a claim
about the evaluation of a formula comes down to one about its operands (`Formula.evaluate_congr`).
-/

namespace Reckon

open Precedence

/-! ### Operators see numbers -/

namespace Fraction

variable {x y : Fraction}

theorem isWhole_reduce (x : Fraction) : x.reduce.isWhole = x.isWhole := by
  have hg : (x.num.natAbs.gcd x.den : Int) ≠ 0 := Int.natCast_ne_zero.mpr x.gcd_pos.ne'
  have hn := x.gcd_mul_num
  have hd : (x.num.natAbs.gcd x.den : Int) * x.reduce.den = x.den := by exact_mod_cast x.gcd_mul_den
  rw [isWhole, isWhole, Bool.eq_iff_iff, beq_iff_eq, beq_iff_eq, ← hn, ← hd,
    ← Int.dvd_iff_emod_eq_zero, ← Int.dvd_iff_emod_eq_zero, mul_dvd_mul_iff_left hg]

theorem trunc_reduce (x : Fraction) : x.reduce.trunc = x.trunc := by
  have hg : 0 < (x.num.natAbs.gcd x.den : Int) := Int.natCast_pos.mpr x.gcd_pos
  have hn := x.gcd_mul_num
  have hd : (x.num.natAbs.gcd x.den : Int) * x.reduce.den = x.den := by exact_mod_cast x.gcd_mul_den
  rw [trunc, trunc, ← hn, ← hd, Int.mul_tdiv_mul_of_pos _ _ hg]

theorem exact_congr (h : x.toRat = y.toRat) : x.exact = y.exact := by
  rw [exact, exact, exactChars, exactChars, expansion, expansion, reduce_eq_of_toRat h]

end Fraction

variable {settings : Settings} {c d : Context}

namespace Evaluation

variable {x x' y y' : Fraction}

theorem exponent_congr (h : y.toRat = y'.toRat) : exponent settings y = exponent settings y' := by
  have hw : y.isWhole = y'.isWhole := by
    rw [← y.isWhole_reduce, ← y'.isWhole_reduce, Fraction.reduce_eq_of_toRat h]
  have ht : y.trunc = y'.trunc := by
    rw [← y.trunc_reduce, ← y'.trunc_reduce, Fraction.reduce_eq_of_toRat h]
  rw [exponent, exponent, hw, ht, Fraction.exact_congr h]

theorem map_mapError (m : Except ArithmeticFault Fraction) (k : ArithmeticFault → EvalFault) :
    (m.mapError k).map Fraction.reduce = (m.map Fraction.reduce).mapError k := by
  cases m <;> rfl

theorem power_congr (hx : x.toRat = x'.toRat) (hy : y.toRat = y'.toRat) :
    (power settings x y).map Fraction.reduce = (power settings x' y').map Fraction.reduce := by
  have size (e : Int) : powerSize x e = powerSize x' e := by
    rw [powerSize, powerSize, Fraction.reduce_eq_of_toRat hx]
  rw [power, power, exponent_congr hy]
  cases exponent settings y' with
  | error fault => rfl
  | ok e =>
    simp only [size]
    split
    · rfl
    · rw [map_mapError, map_mapError, Fraction.map_reduce_pow, Fraction.map_reduce_pow, hx]

end Evaluation

theorem Precedence.combine_congr {x x' y y' : Fraction} (o : Operator) (hx : x.toRat = x'.toRat)
    (hy : y.toRat = y'.toRat) : combine settings o x y = combine settings o x' y' := by
  rw [combine, combine]
  cases o with
  | add =>
    have h : (x + y).toRat = (x' + y').toRat := by
      rw [Fraction.toRat_add, Fraction.toRat_add, hx, hy]
    exact congrArg Except.ok (Fraction.reduce_eq_of_toRat h)
  | subtract =>
    have h : (x - y).toRat = (x' - y').toRat := by
      rw [Fraction.toRat_sub, Fraction.toRat_sub, hx, hy]
    exact congrArg Except.ok (Fraction.reduce_eq_of_toRat h)
  | multiply =>
    have h : (x * y).toRat = (x' * y').toRat := by
      rw [Fraction.toRat_mul, Fraction.toRat_mul, hx, hy]
    exact congrArg Except.ok (Fraction.reduce_eq_of_toRat h)
  | divide =>
    rw [Evaluation.value, Evaluation.value, Evaluation.map_mapError, Evaluation.map_mapError,
      Fraction.map_reduce_div, Fraction.map_reduce_div, hx, hy]
  | power => exact Evaluation.power_congr hx hy

/-! ### Operands -/

namespace Evaluation

/-- The value of an operand. -/
def operandValue (settings : Settings) (context : Context) : Element → Except EvalFault Fraction
  | .negate | .operator _ => .error .nothingToEvaluate
  | .number x => .ok x
  | .var name =>
    match context name with
    | none => .error (.unknownVariable name)
    | some x => .ok x
  | .call f arguments =>
    argumentValues settings context arguments >>= fun xs =>
      (f.operation xs).mapError (.function f.name)
  | .group body => Formula.evaluate settings context body

theorem outcome_operand {x : Element} (h : x.isOperand) (es : Formula) (m : Machine) :
    outcome settings c (x :: es) m =
      operandValue settings c x >>= fun v => outcome settings c es (m.operand v) := by
  cases x with
  | negate | operator => cases h
  | number x => exact outcome_number x es m
  | var name => exact outcome_var name es m
  | call f arguments =>
    rw [outcome_call, operandValue]
    cases argumentValues settings c arguments <;> rfl
  | group body => exact outcome_group body es m

theorem outcome_operators (o : Operator) (es : Formula) (m : Machine) :
    outcome settings c (.operator o :: es) m =
      m.operator settings o >>= fun m => outcome settings c es m := by
  rw [outcome, run]
  cases m.operator settings o <;> rfl

/-! ### States that denote the same -/

namespace Machine

/-- A state with its values as numbers. -/
def denoted (m : Machine) : List ℚ × List Operator × Bool :=
  (m.values.map Fraction.toRat, m.operators, m.negated)

theorem eq_of_denoted {m n : Machine} (h : m.denoted = n.denoted) :
    ∃ vs ws ps negated, m = ⟨vs, ps, negated⟩ ∧ n = ⟨ws, ps, negated⟩ ∧
      vs.map Fraction.toRat = ws.map Fraction.toRat := by
  obtain ⟨vs, ps, negated⟩ := m
  obtain ⟨ws, ps', negated'⟩ := n
  obtain ⟨hv, h⟩ := Prod.mk.inj h
  obtain ⟨rfl, rfl⟩ := Prod.mk.inj h
  exact ⟨vs, ws, ps, negated, rfl, rfl, hv⟩

end Machine

variable {vs ws : List Fraction} {m n : Machine}

theorem forall₂_of_map_eq (h : vs.map Fraction.toRat = ws.map Fraction.toRat) :
    List.Forall₂ (fun x y => x.toRat = y.toRat) vs ws := by
  rwa [← List.forall₂_eq_eq_eq, List.forall₂_map_left_iff, List.forall₂_map_right_iff] at h

theorem apply_congr (settings : Settings) (o : Operator)
    (h : vs.map Fraction.toRat = ws.map Fraction.toRat) :
    (apply settings o vs).map (List.map Fraction.toRat) =
      (apply settings o ws).map (List.map Fraction.toRat) := by
  cases forall₂_of_map_eq h with
  | nil => rfl
  | cons hy rest =>
    cases rest with
    | nil => rfl
    | @cons x x' _ _ hx _ =>
      have below := (List.cons.inj (List.cons.inj h).2).2
      rw [apply_eq, apply_eq, combine_congr o hx hy]
      cases combine settings o x' _ with
      | error fault => rfl
      | ok z => exact congrArg (fun qs => Except.ok (z.toRat :: qs)) below

theorem unwind_congr (settings : Settings) (o : Operator) (ps : List Operator)
    (h : vs.map Fraction.toRat = ws.map Fraction.toRat) :
    (Machine.unwind settings o ps vs).map (Prod.map id (List.map Fraction.toRat)) =
      (Machine.unwind settings o ps ws).map (Prod.map id (List.map Fraction.toRat)) := by
  induction ps generalizing vs ws with
  | nil => exact congrArg (fun qs => Except.ok (([] : List Operator), qs)) h
  | cons p ps ih =>
    rw [Machine.unwind, Machine.unwind]
    split
    · rcases map_eq_map (apply_congr settings p h) with
        ⟨fault, hv, hw⟩ | ⟨vs', ws', hv, hw, h'⟩
      · rw [hv, hw]
      · rw [hv, hw]
        exact ih h'
    · exact congrArg (fun qs => Except.ok (p :: ps, qs)) h

theorem drain_congr (settings : Settings) (ps : List Operator)
    (h : vs.map Fraction.toRat = ws.map Fraction.toRat) :
    (Machine.drain settings ps vs).map (List.map Fraction.toRat) =
      (Machine.drain settings ps ws).map (List.map Fraction.toRat) := by
  induction ps generalizing vs ws with
  | nil => exact congrArg Except.ok h
  | cons p ps ih =>
    rw [Machine.drain, Machine.drain]
    rcases map_eq_map (apply_congr settings p h) with
      ⟨fault, hv, hw⟩ | ⟨vs', ws', hv, hw, h'⟩
    · rw [hv, hw]
    · rw [hv, hw]
      exact ih h'

theorem operator_congr (settings : Settings) (o : Operator) (h : m.denoted = n.denoted) :
    (m.operator settings o).map Machine.denoted = (n.operator settings o).map Machine.denoted := by
  obtain ⟨vs, ws, ps, negated, rfl, rfl, hv⟩ := Machine.eq_of_denoted h
  rw [Machine.operator, Machine.operator]
  rcases map_eq_map (unwind_congr settings o ps hv) with
    ⟨fault, hv, hw⟩ | ⟨⟨ps₁, vs'⟩, ⟨ps₂, ws'⟩, hv, hw, h'⟩
  · simp only [hv, hw]
  · obtain ⟨rfl, hvs⟩ : ps₁ = ps₂ ∧ vs'.map Fraction.toRat = ws'.map Fraction.toRat :=
      Prod.mk.inj h'
    simp only [hv, hw]
    exact congrArg (fun qs => Except.ok (qs, o :: ps₁, negated)) hvs

theorem operand_congr {x y : Fraction} (h : m.denoted = n.denoted) (hx : x.toRat = y.toRat) :
    (m.operand x).denoted = (n.operand y).denoted := by
  obtain ⟨vs, ws, ps, negated, rfl, rfl, hv⟩ := Machine.eq_of_denoted h
  cases negated with
  | false => exact congrArg (fun q => (q, ps, false)) (congrArg₂ List.cons hx hv)
  | true =>
    have hx : (-x).toRat = (-y).toRat := by rw [Fraction.toRat_neg, Fraction.toRat_neg, hx]
    exact congrArg (fun q => (q, ps, false)) (congrArg₂ List.cons hx hv)

theorem finish_congr (h : m.denoted = n.denoted) : m.finish settings = n.finish settings := by
  obtain ⟨vs, ws, ps, negated, rfl, rfl, hv⟩ := Machine.eq_of_denoted h
  rw [Machine.finish, Machine.finish]
  rcases map_eq_map (drain_congr settings ps hv) with
    ⟨fault, hv, hw⟩ | ⟨vs', ws', hv, hw, h'⟩
  · simp only [hv, hw]
  · simp only [hv, hw]
    cases forall₂_of_map_eq h' with
    | nil => rfl
    | cons hx rest =>
      cases rest with
      | nil => exact congrArg Except.ok (Fraction.reduce_eq_of_toRat hx)
      | cons _ _ => rfl

/-! ### Formulas with the same operands -/

/-- Is `x` under `c` the same sign as `y` under `d`, or an operand with the same number as its value
or the same fault? -/
inductive Corresponds (settings : Settings) (c d : Context) : Element → Element → Prop
  | negate : Corresponds settings c d .negate .negate
  | operator {o : Operator} : Corresponds settings c d (.operator o) (.operator o)
  | operand {x y : Element} (hx : x.isOperand) (hy : y.isOperand)
      (h : (operandValue settings c x).map Fraction.toRat =
        (operandValue settings d y).map Fraction.toRat) : Corresponds settings c d x y

namespace Corresponds

theorem number {x y : Fraction} (h : x.toRat = y.toRat) :
    Corresponds settings c d (.number x) (.number y) :=
  .operand rfl rfl (congrArg Except.ok h)

theorem call {f : Callable} {as bs : List Formula}
    (h : argumentValues settings c as = argumentValues settings d bs) :
    Corresponds settings c d (.call f as) (.call f bs) :=
  .operand rfl rfl (by rw [operandValue, operandValue, h])

theorem group {f g : Formula} (h : f.evaluate settings c = g.evaluate settings d) :
    Corresponds settings c d (.group f) (.group g) :=
  .operand rfl rfl (by rw [operandValue, operandValue, h])

end Corresponds

theorem outcome_congr {f g : Formula} (h : List.Forall₂ (Corresponds settings c d) f g)
    (hm : m.denoted = n.denoted) : outcome settings c f m = outcome settings d g n := by
  induction h generalizing m n with
  | nil =>
    rw [outcome_nil, outcome_nil]
    exact finish_congr hm
  | cons hx _ ih =>
    cases hx with
    | negate =>
      rw [outcome_negate, outcome_negate]
      obtain ⟨vs, ws, ps, negated, rfl, rfl, hv⟩ := Machine.eq_of_denoted hm
      exact ih (congrArg (fun qs => (qs, ps, !negated)) hv)
    | @operator o =>
      rw [outcome_operators, outcome_operators]
      rcases map_eq_map (operator_congr settings o hm) with
        ⟨fault, hv, hw⟩ | ⟨m', n', hv, hw, hm'⟩
      · rw [hv, hw]
        rfl
      · rw [hv, hw]
        exact ih hm'
    | operand hx hy h =>
      rw [outcome_operand hx, outcome_operand hy]
      rcases map_eq_map h with ⟨fault, hv, hw⟩ | ⟨x, y, hv, hw, hxy⟩
      · rw [hv, hw]
        rfl
      · rw [hv, hw]
        exact ih (operand_congr hm hxy)

end Evaluation

/-- Formulas that correspond element by element are evaluated alike. -/
theorem Formula.evaluate_congr {f g : Formula}
    (h : List.Forall₂ (Evaluation.Corresponds settings c d) f g) :
    f.evaluate settings c = g.evaluate settings d :=
  Evaluation.outcome_congr h rfl

theorem Evaluation.argumentValues_congr {a b : Formula} {as bs : List Formula}
    (h : List.Forall₂ (Corresponds settings c d) a b)
    (hs : argumentValues settings c as = argumentValues settings d bs) :
    argumentValues settings c (a :: as) = argumentValues settings d (b :: bs) := by
  rw [argumentValues_cons, argumentValues_cons, Formula.evaluate_congr h, hs]

end Reckon
