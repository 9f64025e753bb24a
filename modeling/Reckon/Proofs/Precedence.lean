import Mathlib
import Reckon.Formula.Syntax
import Reckon.Proofs.Lists

/-!
# The machine follows the precedence grammar

`Evaluation.outcome` is what becomes of a state when the rest of a formula is read and the waiting
operators are applied. The yield of a tree in front of some rest has the outcome that its value as
an operand has (`outcome_sum`, and one lemma for each kind of tree), provided that the rest makes
the operators of the tree go first (`Ends`) and the waiting ones do not (`Waits`). The value may be
missing: then both sides are its fault, so the order of the faults agrees as well.

A formula of the right shape is the yield of exactly one tree (`exists_sum`, `Sum.formula_injective`):
of the operators of the lowest tier the last one splits a sum or a term, and the first one a power.
-/

namespace Reckon

open Precedence

/-! ### Faults of operators -/

/-- The faults that an operator has of its own. -/
inductive EvalFault.OfOperator : EvalFault → Prop
  | fractionalExponent {exponent : String} : OfOperator (.fractionalExponent exponent)
  | exponentTooLarge {exponent : String} {limit : Nat} : OfOperator (.exponentTooLarge exponent limit)
  | resultTooLarge {limit : Nat} : OfOperator (.resultTooLarge limit)
  | arithmetic {fault : ArithmeticFault} : OfOperator (.arithmetic fault)

section
variable {settings : Settings} {x y : Fraction} {fault : EvalFault}

theorem Evaluation.ofOperator_mapError {m : Except ArithmeticFault Fraction}
    (h : m.mapError .arithmetic = .error fault) : fault.OfOperator := by
  obtain ⟨fault, -, rfl⟩ := mapError_eq_error h
  exact .arithmetic

theorem Evaluation.ofOperator_exponent (h : exponent settings y = .error fault) :
    fault.OfOperator := by
  rw [exponent] at h
  split at h
  · split at h
    · cases h
    · exact Except.error.inj h ▸ .exponentTooLarge
  · exact Except.error.inj h ▸ .fractionalExponent

theorem Evaluation.ofOperator_power (h : power settings x y = .error fault) : fault.OfOperator := by
  rw [power] at h
  split at h
  · next hy => exact Except.error.inj h ▸ ofOperator_exponent hy
  · split at h
    · exact Except.error.inj h ▸ .resultTooLarge
    · exact ofOperator_mapError h

theorem Precedence.ofOperator_combine {o : Operator} (h : combine settings o x y = .error fault) :
    fault.OfOperator := by
  have value : Evaluation.value settings o x y = .error fault := by
    rw [combine] at h
    rcases hv : Evaluation.value settings o x y with fault' | z
    · rw [hv] at h
      exact congrArg Except.error (Except.error.inj h)
    · rw [hv] at h
      cases h
  cases o with
  | add | subtract | multiply => cases value
  | divide => exact Evaluation.ofOperator_mapError value
  | power => exact Evaluation.ofOperator_power value

end

namespace Evaluation

variable {settings : Settings} {context : Context}

/-- What becomes of the state `m` in front of `es`. -/
def outcome (settings : Settings) (context : Context) (es : List Element) (m : Machine) :
    Except EvalFault Fraction :=
  match run settings context es m with
  | .error fault => .error fault
  | .ok m => m.finish settings

theorem evaluate_eq (f : Formula) : f.evaluate settings context = outcome settings context f .start :=
  rfl

theorem outcome_nil (m : Machine) : outcome settings context [] m = m.finish settings := by
  rw [outcome, run]

theorem outcome_negate (es : List Element) (m : Machine) :
    outcome settings context (.negate :: es) m =
      outcome settings context es { m with negated := !m.negated } := by
  rw [outcome, run]
  rfl

/-- A negated operand is the negative one. -/
theorem operand_negated (m : Machine) (x : Fraction) :
    Machine.operand { m with negated := !m.negated } x = m.operand (-x) := by
  obtain ⟨values, ps, negated⟩ := m
  have neg_neg : - -x = x := by
    obtain ⟨n, d, h⟩ := x
    exact congrArg (fun n => (⟨n, d, h⟩ : Fraction)) (Int.neg_neg n)
  cases negated with
  | true => simp [Machine.operand, neg_neg]
  | false => rfl

theorem outcome_number (x : Fraction) (es : List Element) (m : Machine) :
    outcome settings context (.number x :: es) m = outcome settings context es (m.operand x) := by
  rw [outcome, run]
  rfl

theorem outcome_var (name : String) (es : List Element) (m : Machine) :
    outcome settings context (.var name :: es) m =
      (match context name with
        | none => .error (.unknownVariable name)
        | some x => .ok x) >>= fun x => outcome settings context es (m.operand x) := by
  rw [outcome, run]
  cases context name <;> rfl

theorem outcome_group (body : Formula) (es : List Element) (m : Machine) :
    outcome settings context (.group body :: es) m =
      body.evaluate settings context >>= fun x => outcome settings context es (m.operand x) := by
  rw [outcome, run, Formula.evaluate]
  cases run settings context body .start with
  | error fault => rfl
  | ok inner =>
    simp only
    cases inner.finish settings <;> rfl

theorem outcome_call (f : Callable) (arguments : List Formula) (es : List Element) (m : Machine) :
    outcome settings context (.call f arguments :: es) m =
      argumentValues settings context arguments >>= fun xs =>
        (f.operation xs).mapError (.function f.name) >>= fun x =>
          outcome settings context es (m.operand x) := by
  rw [outcome, run]
  cases argumentValues settings context arguments with
  | error fault => rfl
  | ok xs =>
    simp only [bind, Except.bind]
    cases f.operation xs <;> rfl

theorem argumentValues_cons (a : Formula) (as : List Formula) :
    argumentValues settings context (a :: as) =
      a.evaluate settings context >>= fun x =>
        (argumentValues settings context as).map fun xs => x :: xs := by
  rw [argumentValues, Formula.evaluate]
  cases run settings context a .start with
  | error fault => rfl
  | ok m =>
    simp only
    cases m.finish settings <;> rfl

/-! ### Operators that wait -/

/-- Is `es` at its end or at an operator that lets `p` go first? -/
def Ends (p : Operator) : List Element → Prop
  | [] => True
  | .operator o :: _ => o.yieldsTo p
  | _ :: _ => False

/-- Does none of the waiting operators go before `o`? The latest decides. -/
def Waits (o : Operator) (ps : List Operator) : Prop := ∀ p ∈ ps.head?, o.yieldsTo p = false

theorem unwind_eq {o : Operator} {ps : List Operator} (h : Waits o ps) (values : List Fraction) :
    Machine.unwind settings o ps values = .ok (ps, values) := by
  cases ps with
  | nil => rfl
  | cons p ps => rw [Machine.unwind, h p rfl]; rfl

theorem outcome_operator {o : Operator} {ps : List Operator} (h : Waits o ps)
    (values : List Fraction) (es : List Element) :
    outcome settings context (.operator o :: es) ⟨values, ps, false⟩ =
      outcome settings context es ⟨values, o :: ps, false⟩ := by
  rw [outcome, run, Machine.operator, unwind_eq h]
  rfl

theorem apply_eq (p : Operator) (x y : Fraction) (values : List Fraction) :
    apply settings p (y :: x :: values) = (combine settings p x y).map fun z => z :: values := by
  rw [apply, combine]
  cases value settings p x y <;> rfl

/-- An operator goes as soon as the next one lets it, or at the end. -/
theorem outcome_apply {p : Operator} {es : List Element} (h : Ends p es) (x y : Fraction)
    (values : List Fraction) (ps : List Operator) :
    outcome settings context es ⟨y :: x :: values, p :: ps, false⟩ =
      combine settings p x y >>= fun z => outcome settings context es ⟨z :: values, ps, false⟩ := by
  cases es with
  | nil =>
    simp only [outcome_nil, Machine.finish, Machine.drain, apply_eq]
    cases combine settings p x y <;> rfl
  | cons e es =>
    cases e with
    | operator o =>
      have ho : o.yieldsTo p = true := h
      simp only [outcome, run, Machine.operator, Machine.unwind, ho, if_true, apply_eq]
      cases combine settings p x y <;> rfl
    | _ => exact h.elim

theorem Ends.mono {p q : Operator} {es : List Element} (h : Ends p es)
    (hpq : ∀ o : Operator, o.yieldsTo p → o.yieldsTo q) : Ends q es := by
  cases es with
  | nil => trivial
  | cons e es =>
    cases e with
    | operator o => exact hpq o h
    | _ => exact h.elim

/-- Operators of one of the two lower tiers let each other go first, and those of the upper tiers. -/
theorem yieldsTo_of_precedence {o p q : Operator} (hpq : p.precedence ≤ q.precedence)
    (hp : p.isLeftAssociative) (h : o.yieldsTo p) : o.yieldsTo q := by
  revert hpq hp h
  cases o <;> cases p <;> cases q <;> decide

/-- Left operand, operator, right operand: the operator waits while the right operand is read. -/
theorem outcome_infix {o : Operator} {left right es : List Element} {values : List Fraction}
    {ps : List Operator} {lv rv : Except EvalFault Fraction} (waits : Waits o ps) (goes : Ends o es)
    (hl : outcome settings context (left ++ .operator o :: (right ++ es)) ⟨values, ps, false⟩ =
      lv >>= fun x => outcome settings context (.operator o :: (right ++ es)) ⟨x :: values, ps, false⟩)
    (hr : ∀ x, outcome settings context (right ++ es) ⟨x :: values, o :: ps, false⟩ =
      rv >>= fun y => outcome settings context es ⟨y :: x :: values, o :: ps, false⟩) :
    outcome settings context ((left ++ .operator o :: right) ++ es) ⟨values, ps, false⟩ =
      (do let x ← lv; let y ← rv; combine settings o x y) >>= fun z =>
        outcome settings context es ⟨z :: values, ps, false⟩ := by
  rw [List.append_assoc, List.cons_append, hl]
  cases lv with
  | error fault => rfl
  | ok x =>
    have hx := hr x
    rw [← outcome_operator waits] at hx
    refine hx.trans ?_
    cases rv with
    | error fault => rfl
    | ok y => exact outcome_apply goes x y values ps

/-! ### One lemma for each kind of tree -/

/-- A formula between brackets starts without waiting operators, and its value is in lowest terms. -/
theorem evaluate_of_outcome {f : Formula} {v : Except EvalFault Fraction}
    (h : outcome settings context (f ++ []) .start =
      v >>= fun x => outcome settings context [] ⟨[x], [], false⟩) :
    f.evaluate settings context = v.map Fraction.reduce := by
  rw [List.append_nil] at h
  rw [evaluate_eq, h]
  cases v with
  | error fault => rfl
  | ok x => exact outcome_nil _

mutual
theorem outcome_sum : ∀ (s : Sum) (es : List Element) (values : List Fraction),
    Ends .add es →
      outcome settings context (s.formula ++ es) ⟨values, [], false⟩ =
        s.value settings context >>= fun x => outcome settings context es ⟨x :: values, [], false⟩
  | .term t, es, values, h => by
    rw [Sum.formula, Sum.value]
    exact outcome_term t es values [] nofun
      (h.mono fun o => yieldsTo_of_precedence (by decide) (by decide))
  | .add l o tier r, es, values, h => by
    have first : o.yieldsTo .add := by revert tier; cases o <;> decide
    have waits : Waits .multiply [o] := fun p hp => by
      obtain rfl : o = p := Option.some.inj hp
      revert tier
      cases o <;> decide
    rw [Sum.formula, Sum.value]
    exact outcome_infix nofun
      (h.mono fun q => yieldsTo_of_precedence (by rw [tier]; decide) (by decide))
      (outcome_sum l _ values first)
      fun x => outcome_term r es (x :: values) [o] waits
        (h.mono fun q => yieldsTo_of_precedence (by decide) (by decide))
theorem outcome_term : ∀ (t : Term) (es : List Element) (values : List Fraction)
    (ps : List Operator), Waits .multiply ps → Ends .multiply es →
      outcome settings context (t.formula ++ es) ⟨values, ps, false⟩ =
        t.value settings context >>= fun x => outcome settings context es ⟨x :: values, ps, false⟩
  | .power p, es, values, ps, hp, h => by
    rw [Term.formula, Term.value]
    exact outcome_power p es values ps
      (h.mono fun o => yieldsTo_of_precedence (by decide) (by decide))
  | .mul l o tier r, es, values, ps, hp, h => by
    have first : o.yieldsTo .multiply := by revert tier; cases o <;> decide
    have waits : Waits o ps := fun p hp' => by
      have := hp p hp'
      revert tier this
      cases o <;> cases p <;> decide
    rw [Term.formula, Term.value]
    exact outcome_infix waits
      (h.mono fun q => yieldsTo_of_precedence (by rw [tier]; decide) (by decide))
      (outcome_term l _ values ps hp first)
      fun x => outcome_power r es (x :: values) (o :: ps)
        (h.mono fun q => yieldsTo_of_precedence (by decide) (by decide))
theorem outcome_power : ∀ (p : Power) (es : List Element) (values : List Fraction)
    (ps : List Operator), Ends .power es →
      outcome settings context (p.formula ++ es) ⟨values, ps, false⟩ =
        p.value settings context >>= fun x => outcome settings context es ⟨x :: values, ps, false⟩
  | .atom a, es, values, ps, h => by
    rw [Power.formula, Power.value]
    exact outcome_atom a es ⟨values, ps, false⟩
  | .pow b e, es, values, ps, h => by
    have waits : Waits .power ps := fun p _ => by cases p <;> rfl
    rw [Power.formula, Power.value]
    exact outcome_infix waits h (outcome_atom b _ ⟨values, ps, false⟩)
      fun x => outcome_power e es (x :: values) (.power :: ps) h
theorem outcome_atom : ∀ (a : Atom) (es : List Element) (m : Machine),
    outcome settings context (a.formula ++ es) m =
      a.value settings context >>= fun x => outcome settings context es (m.operand x)
  | .negate a, es, m => by
    rw [Atom.formula, Atom.value, List.cons_append, outcome_negate, outcome_atom a es]
    cases a.value settings context with
    | error fault => rfl
    | ok x => exact congrArg (outcome settings context es) (operand_negated m x)
  | .leaf l, es, m => by
    rw [Atom.formula, Atom.value]
    exact outcome_leaf l es m
theorem outcome_leaf : ∀ (l : Leaf) (es : List Element) (m : Machine),
    outcome settings context (l.element :: es) m =
      l.value settings context >>= fun x => outcome settings context es (m.operand x)
  | .number x, es, m => by
    rw [Leaf.element, Leaf.value, outcome_number]
    rfl
  | .var name, es, m => by
    rw [Leaf.element, Leaf.value]
    exact outcome_var name es m
  | .call f arguments, es, m => by
    rw [Leaf.element, outcome_call, argumentValues_formulas, Leaf.value]
    cases values settings context arguments <;> rfl
  | .group body, es, m => by
    rw [Leaf.element, outcome_group, evaluate_of_outcome (outcome_sum body [] [] trivial), Leaf.value]
    cases body.value settings context <;> rfl
theorem argumentValues_formulas : ∀ ss : List Sum,
    argumentValues settings context (formulas ss) = values settings context ss
  | [] => by rw [formulas, argumentValues, values]
  | s :: ss => by
    rw [formulas, argumentValues_cons, argumentValues_formulas ss,
      evaluate_of_outcome (outcome_sum s [] [] trivial), values]
    cases s.value settings context with
    | error fault => rfl
    | ok x => cases values settings context ss <;> rfl
end

end Evaluation

namespace Precedence

/-! ### A tree for each formula of the right shape -/

/-- What can be put in front of every term can be put in front of every sum. -/
theorem exists_sum_append (es : List Element)
    (h : ∀ t : Term, ∃ s : Sum, s.formula = es ++ t.formula) :
    ∀ s : Sum, ∃ s' : Sum, s'.formula = es ++ s.formula
  | .term t => by
    obtain ⟨s, hs⟩ := h t
    exact ⟨s, by rw [hs, Sum.formula]⟩
  | .add l o tier r => by
    obtain ⟨s, hs⟩ := exists_sum_append es h l
    exact ⟨.add s o tier r, by rw [Sum.formula, Sum.formula, hs, List.append_assoc]⟩

/-- What can be put in front of every power can be put in front of every term. -/
theorem exists_term_append (es : List Element)
    (h : ∀ p : Power, ∃ t : Term, t.formula = es ++ p.formula) :
    ∀ t : Term, ∃ t' : Term, t'.formula = es ++ t.formula
  | .power p => by
    obtain ⟨t, ht⟩ := h p
    exact ⟨t, by rw [ht, Term.formula]⟩
  | .mul l o tier r => by
    obtain ⟨t, ht⟩ := exists_term_append es h l
    exact ⟨.mul t o tier r, by rw [Term.formula, Term.formula, ht, List.append_assoc]⟩

theorem exists_sum_negate (s : Sum) : ∃ s' : Sum, s'.formula = .negate :: s.formula := by
  have power (p : Power) : ∃ t : Term, t.formula = [.negate] ++ p.formula := by
    cases p with
    | atom a =>
      exact ⟨.power (.atom (.negate a)), by simp [Term.formula, Power.formula, Atom.formula]⟩
    | pow b e =>
      exact ⟨.power (.pow (.negate b) e), by simp [Term.formula, Power.formula, Atom.formula]⟩
  refine exists_sum_append [.negate] (fun t => ?_) s
  obtain ⟨t', ht⟩ := exists_term_append _ power t
  exact ⟨.term t', by rw [Sum.formula, ht]⟩

theorem exists_sum_operator (a : Atom) (o : Operator) (s : Sum) :
    ∃ s' : Sum, s'.formula = a.formula ++ .operator o :: s.formula := by
  rw [← List.singleton_append, ← List.append_assoc]
  refine exists_sum_append _ (fun t => ?_) s
  have tiers : o.precedence = 1 ∨ o.precedence = 2 ∨ o = .power := by
    cases o <;> simp [Operator.precedence]
  rcases tiers with tier | tier | rfl
  · exact ⟨.add (.term (.power (.atom a))) o tier t, by
      simp [Sum.formula, Term.formula, Power.formula]⟩
  · obtain ⟨t', ht⟩ := exists_term_append (a.formula ++ [.operator o])
      (fun p => ⟨.mul (.power (.atom a)) o tier p, by simp [Term.formula, Power.formula]⟩) t
    exact ⟨.term t', by rw [Sum.formula, ht]⟩
  · obtain ⟨t', ht⟩ := exists_term_append (a.formula ++ [.operator .power])
      (fun p => ⟨.power (.pow a p), by simp [Term.formula, Power.formula]⟩) t
    exact ⟨.term t', by rw [Sum.formula, ht]⟩

mutual
theorem exists_sum : ∀ f : List Element, Formula.shaped f → ∃ s : Sum, s.formula = f
  | [], h => by rw [Formula.shaped] at h; cases h
  | .negate :: es, h => by
    rw [Formula.shaped] at h
    obtain ⟨s, rfl⟩ := exists_sum es h
    exact exists_sum_negate s
  | .operator _ :: _, h => by rw [Formula.shaped] at h; cases h
  | .number x :: es, h => by
    rw [Formula.shaped] at h
    exact exists_tail es h (.number x) rfl
  | .var name :: es, h => by
    rw [Formula.shaped] at h
    exact exists_tail es h (.var name) rfl
  | .call f arguments :: es, h => by
    rw [Formula.shaped, Bool.and_eq_true] at h
    obtain ⟨ss, rfl⟩ := exists_sums arguments h.1
    exact exists_tail es h.2 (.call f ss) rfl
  | .group body :: es, h => by
    rw [Formula.shaped, Bool.and_eq_true] at h
    obtain ⟨s, rfl⟩ := exists_sum body h.1
    exact exists_tail es h.2 (.group s) rfl
theorem exists_tail : ∀ es : List Element, Formula.shapedTail es →
    ∀ (l : Leaf) {e : Element}, l.element = e → ∃ s : Sum, s.formula = e :: es
  | [], _, l, _, he => ⟨.term (.power (.atom (.leaf l))), by
    simp [Sum.formula, Term.formula, Power.formula, Atom.formula, he]⟩
  | .operator o :: es, h, l, _, he => by
    rw [Formula.shapedTail] at h
    obtain ⟨s, rfl⟩ := exists_sum es h
    obtain ⟨s', hs⟩ := exists_sum_operator (.leaf l) o s
    exact ⟨s', by rw [hs, Atom.formula, he, List.singleton_append]⟩
  | .negate :: _, h, _, _, _ | .number _ :: _, h, _, _, _ | .var _ :: _, h, _, _, _
  | .call _ _ :: _, h, _, _, _ | .group _ :: _, h, _, _, _ => by
    rw [Formula.shapedTail] at h
    · cases h
    · exact nofun
theorem exists_sums : ∀ as : List (List Element), Formula.allShaped as →
    ∃ ss : List Sum, formulas ss = as
  | [], _ => ⟨[], by rw [formulas]⟩
  | a :: as, h => by
    rw [Formula.allShaped, Bool.and_eq_true] at h
    obtain ⟨s, rfl⟩ := exists_sum a h.1
    obtain ⟨ss, rfl⟩ := exists_sums as h.2
    exact ⟨s :: ss, by rw [formulas]⟩
end

/-! ### No other tree -/

/-- Is it an operator of the tier `n`? -/
def Tier (n : Nat) (e : Element) : Prop := ∃ o : Operator, o.precedence = n ∧ e = .operator o

theorem Atom.not_tier {n : Nat} : ∀ (a : Atom), ∀ e ∈ a.formula, ¬ Tier n e
  | .negate a, e, he => by
    rw [Atom.formula] at he
    rcases List.mem_cons.mp he with rfl | he
    · rintro ⟨o, _, h⟩
      cases h
    · exact Atom.not_tier a e he
  | .leaf l, e, he => by
    rw [Atom.formula] at he
    obtain rfl := List.mem_singleton.mp he
    rintro ⟨o, _, h⟩
    cases l <;> (rw [Leaf.element] at h; cases h)

theorem Power.not_tier {n : Nat} (hn : n < 3) : ∀ (p : Power), ∀ e ∈ p.formula, ¬ Tier n e
  | .atom a, e, he => by
    rw [Power.formula] at he
    exact a.not_tier e he
  | .pow b e', e, he => by
    rw [Power.formula] at he
    rcases List.mem_append.mp he with he | he
    · exact b.not_tier e he
    rcases List.mem_cons.mp he with rfl | he
    · rintro ⟨o, rfl, h⟩
      cases h
      exact absurd hn (by decide)
    · exact Power.not_tier hn e' e he

theorem Term.not_tier : ∀ (t : Term), ∀ e ∈ t.formula, ¬ Tier 1 e
  | .power p, e, he => by
    rw [Term.formula] at he
    exact p.not_tier (by decide) e he
  | .mul l o tier r, e, he => by
    rw [Term.formula] at he
    rcases List.mem_append.mp he with he | he
    · exact Term.not_tier l e he
    rcases List.mem_cons.mp he with rfl | he
    · rintro ⟨o, h1, h⟩
      cases h
      rw [tier] at h1
      cases h1
    · exact r.not_tier (by decide) e he

/-- A formula without operators of a tier is not split by one. -/
theorem ne_append_of_not_tier {n : Nat} {es l r : List Element} {o : Operator}
    (h : ∀ e ∈ es, ¬ Tier n e) (tier : o.precedence = n) : es ≠ l ++ .operator o :: r := by
  rintro rfl
  exact h (.operator o) (by simp) ⟨o, tier, rfl⟩

mutual
theorem Sum.formula_injective : ∀ s s' : Sum, s.formula = s'.formula → s = s'
  | .term t, .term t', h => by
    rw [Sum.formula, Sum.formula] at h
    rw [Term.formula_injective t t' h]
  | .term t, .add l o tier r, h => by
    rw [Sum.formula, Sum.formula] at h
    exact absurd h (ne_append_of_not_tier t.not_tier tier)
  | .add l o tier r, .term t, h => by
    rw [Sum.formula, Sum.formula] at h
    exact absurd h.symm (ne_append_of_not_tier t.not_tier tier)
  | .add l o tier r, .add l' o' tier' r', h => by
    rw [Sum.formula, Sum.formula] at h
    obtain ⟨hl, ho, hr⟩ := append_unique_last ⟨o, tier, rfl⟩ ⟨o', tier', rfl⟩ r.not_tier
      r'.not_tier h
    cases ho
    rw [Sum.formula_injective l l' hl, Term.formula_injective r r' hr]
theorem Term.formula_injective : ∀ t t' : Term, t.formula = t'.formula → t = t'
  | .power p, .power p', h => by
    rw [Term.formula, Term.formula] at h
    rw [Power.formula_injective p p' h]
  | .power p, .mul l o tier r, h => by
    rw [Term.formula, Term.formula] at h
    exact absurd h (ne_append_of_not_tier (p.not_tier (by decide)) tier)
  | .mul l o tier r, .power p, h => by
    rw [Term.formula, Term.formula] at h
    exact absurd h.symm (ne_append_of_not_tier (p.not_tier (by decide)) tier)
  | .mul l o tier r, .mul l' o' tier' r', h => by
    rw [Term.formula, Term.formula] at h
    obtain ⟨hl, ho, hr⟩ := append_unique_last ⟨o, tier, rfl⟩ ⟨o', tier', rfl⟩
      (r.not_tier (by decide)) (r'.not_tier (by decide)) h
    cases ho
    rw [Term.formula_injective l l' hl, Power.formula_injective r r' hr]
theorem Power.formula_injective : ∀ p p' : Power, p.formula = p'.formula → p = p'
  | .atom a, .atom a', h => by
    rw [Power.formula, Power.formula] at h
    rw [Atom.formula_injective a a' h]
  | .atom a, .pow b e, h => by
    rw [Power.formula, Power.formula] at h
    exact absurd h (ne_append_of_not_tier a.not_tier rfl)
  | .pow b e, .atom a, h => by
    rw [Power.formula, Power.formula] at h
    exact absurd h.symm (ne_append_of_not_tier a.not_tier rfl)
  | .pow b e, .pow b' e', h => by
    rw [Power.formula, Power.formula] at h
    -- the first power splits: the base has none
    have first (es : List Element) : ∀ x ∈ (Element.operator .power :: es).head?, ¬ ¬ Tier 3 x :=
      fun x hx => by rw [← Option.some.inj hx]; exact not_not.mpr ⟨.power, rfl, rfl⟩
    obtain ⟨hb, he⟩ := append_unique b.not_tier b'.not_tier (first _) (first _) h
    rw [Atom.formula_injective b b' hb, Power.formula_injective e e' (List.cons.inj he).2]
theorem Atom.formula_injective : ∀ a a' : Atom, a.formula = a'.formula → a = a'
  | .negate a, .negate a', h => by
    rw [Atom.formula, Atom.formula] at h
    rw [Atom.formula_injective a a' (List.cons.inj h).2]
  | .negate a, .leaf l, h => by
    rw [Atom.formula, Atom.formula] at h
    cases l <;> (rw [Leaf.element] at h; cases h)
  | .leaf l, .negate a, h => by
    rw [Atom.formula, Atom.formula] at h
    cases l <;> (rw [Leaf.element] at h; cases h)
  | .leaf l, .leaf l', h => by
    rw [Atom.formula, Atom.formula] at h
    rw [Leaf.element_injective l l' (List.cons.inj h).1]
theorem Leaf.element_injective : ∀ l l' : Leaf, l.element = l'.element → l = l'
  | .number x, l', h => by
    rw [Leaf.element] at h
    cases l' <;> (rw [Leaf.element] at h; cases h)
    rfl
  | .var name, l', h => by
    rw [Leaf.element] at h
    cases l' <;> (rw [Leaf.element] at h; cases h)
    rfl
  | .call f ss, l', h => by
    rw [Leaf.element] at h
    cases l' with
    | call f' ss' =>
      rw [Leaf.element] at h
      injection h with hf hs
      rw [hf, formulas_injective ss ss' hs]
    | _ => rw [Leaf.element] at h; cases h
  | .group s, l', h => by
    rw [Leaf.element] at h
    cases l' with
    | group s' =>
      rw [Leaf.element] at h
      injection h with hs
      rw [Sum.formula_injective s s' hs]
    | _ => rw [Leaf.element] at h; cases h
theorem formulas_injective : ∀ ss ss' : List Sum, formulas ss = formulas ss' → ss = ss'
  | [], [], _ => rfl
  | [], s :: ss, h => by rw [formulas, formulas] at h; cases h
  | s :: ss, [], h => by rw [formulas, formulas] at h; cases h
  | s :: ss, s' :: ss', h => by
    rw [formulas, formulas] at h
    obtain ⟨hs, hss⟩ := List.cons.inj h
    rw [Sum.formula_injective s s' hs, formulas_injective ss ss' hss]
end

end Precedence

/-! ### Machine and tree agree -/

/-- A formula of the right shape is the yield of one tree, and its evaluation comes to the value of
that tree in lowest terms, or to the same fault. -/
theorem Formula.evaluate_eq_value (settings : Settings) (context : Context) {f : Formula}
    (h : Formula.shaped f) :
    (∃! s : Precedence.Sum, s.formula = f) ∧ ∀ s : Precedence.Sum, s.formula = f →
      f.evaluate settings context = (s.value settings context).map Fraction.reduce := by
  constructor
  · obtain ⟨s, hs⟩ := exists_sum f h
    exact ⟨s, hs, fun s' hs' => s'.formula_injective s (hs'.trans hs.symm)⟩
  · rintro s rfl
    exact Evaluation.evaluate_of_outcome (Evaluation.outcome_sum s [] [] trivial)

/-- A negation goes before a power: `-2^2` is 4. -/
theorem Formula.evaluate_negated_base :
    Formula.shaped [.negate, .number (.ofInt 2), .operator .power, .number (.ofInt 2)] ∧
      ∃ s : Precedence.Sum,
        s.formula = [.negate, .number (.ofInt 2), .operator .power, .number (.ofInt 2)] ∧
        (s.value {} fun _ => none).map Fraction.reduce = .ok (.ofInt 4) := by
  have shape : Formula.shaped
      [.negate, .number (.ofInt 2), .operator .power, .number (.ofInt 2)] := by
    simp [Formula.shaped, Formula.shapedTail]
  obtain ⟨⟨s, hs, _⟩, h⟩ := Formula.evaluate_eq_value {} (fun _ => none) shape
  refine ⟨shape, s, hs, ?_⟩
  rw [← h s hs]
  cbv

end Reckon
