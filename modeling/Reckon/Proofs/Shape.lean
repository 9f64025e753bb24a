import Mathlib
import Reckon.Calculator
import Reckon.Proofs.Precedence
import Reckon.Proofs.Resolve

/-!
# The formulas of texts

A text resolves to a proper formula (`Resolver.proper_of_spelled`): the steps of a content alternate
between operands and operators, each operand has its groups, and the groups of an expression are
nested one level less than it may be. A proper formula has the shape that the precedence grammar asks
for (`Formula.Proper.shaped`), so its evaluation goes by recursion on a syntax tree and never
misses a value (`Precedence.Sum.value_ne_nothing`).
-/

namespace Reckon

open Precedence

/-! ### Evaluation does not miss a value -/

section
variable {settings : Settings} {context : Context}

theorem mapError_ne_nothing {m : Except ArithmeticFault Fraction} {k : ArithmeticFault → EvalFault}
    (hk : ∀ fault, k fault ≠ .nothingToEvaluate) : m.mapError k ≠ .error .nothingToEvaluate := by
  intro h
  obtain ⟨fault, -, h⟩ := mapError_eq_error h
  exact hk fault h

theorem Precedence.combine_ne_nothing (o : Operator) (x y : Fraction) :
    combine settings o x y ≠ .error .nothingToEvaluate :=
  fun h => nomatch ofOperator_combine h

namespace Precedence

mutual
theorem Sum.value_ne_nothing : ∀ s : Sum, s.value settings context ≠ .error .nothingToEvaluate
  | .term t => by
    rw [Sum.value]
    exact t.value_ne_nothing
  | .add l o _ r => by
    rw [Sum.value]
    exact bind_ne_error l.value_ne_nothing fun x =>
      bind_ne_error r.value_ne_nothing fun y => combine_ne_nothing o x y
theorem Term.value_ne_nothing : ∀ t : Term, t.value settings context ≠ .error .nothingToEvaluate
  | .power p => by
    rw [Term.value]
    exact p.value_ne_nothing
  | .mul l o _ r => by
    rw [Term.value]
    exact bind_ne_error l.value_ne_nothing fun x =>
      bind_ne_error r.value_ne_nothing fun y => combine_ne_nothing o x y
theorem Power.value_ne_nothing : ∀ p : Power, p.value settings context ≠ .error .nothingToEvaluate
  | .atom a => by
    rw [Power.value]
    exact a.value_ne_nothing
  | .pow b e => by
    rw [Power.value]
    exact bind_ne_error b.value_ne_nothing fun x =>
      bind_ne_error e.value_ne_nothing fun y => combine_ne_nothing .power x y
theorem Atom.value_ne_nothing : ∀ a : Atom, a.value settings context ≠ .error .nothingToEvaluate
  | .negate a => by
    rw [Atom.value]
    exact bind_ne_error a.value_ne_nothing nofun
  | .leaf l => by
    rw [Atom.value]
    exact l.value_ne_nothing
theorem Leaf.value_ne_nothing : ∀ l : Leaf, l.value settings context ≠ .error .nothingToEvaluate
  | .number x => by
    rw [Leaf.value]
    exact nofun
  | .var name => by
    rw [Leaf.value]
    cases context name <;> exact nofun
  | .call f arguments => by
    rw [Leaf.value]
    exact bind_ne_error (values_ne_nothing arguments) fun xs => mapError_ne_nothing nofun
  | .group body => by
    rw [Leaf.value]
    exact bind_ne_error body.value_ne_nothing nofun
theorem values_ne_nothing : ∀ ss : List Sum,
    values settings context ss ≠ .error .nothingToEvaluate
  | [] => by
    rw [values]
    exact nofun
  | s :: ss => by
    rw [values]
    exact bind_ne_error s.value_ne_nothing fun _ => bind_ne_error (values_ne_nothing ss) nofun
end

end Precedence

theorem Formula.evaluate_ne_nothing {f : Formula} (h : Formula.shaped f) :
    f.evaluate settings context ≠ .error .nothingToEvaluate := by
  obtain ⟨s, rfl⟩ := exists_sum f h
  rw [Evaluation.evaluate_of_outcome (Evaluation.outcome_sum s [] [] trivial)]
  exact bind_ne_error s.value_ne_nothing nofun

end

/-! ### Proper formulas are shaped -/

theorem Formula.allShaped_of_forall {as : List Formula} (h : ∀ a ∈ as, Formula.shaped a) :
    Formula.allShaped as := by
  induction as with
  | nil => rw [allShaped]
  | cons a as ih =>
    rw [List.forall_mem_cons] at h
    rw [allShaped, h.1, ih h.2]
    rfl

mutual
theorem Formula.Proper.shaped : ∀ {d : Nat} {f : List Element}, Formula.Proper d f →
    Formula.shaped f
  | _, _, .plain hx hs => hx.shaped_cons hs.shapedTail
  | _, _, .negated hx hs => by
    rw [Formula.shaped]
    exact hx.shaped_cons hs.shapedTail
theorem Formula.ProperTail.shapedTail : ∀ {d : Nat} {f : List Element}, Formula.ProperTail d f →
    Formula.shapedTail f
  | _, _, .nil => by rw [Formula.shapedTail]
  | _, _, .cons h => by
    rw [Formula.shapedTail]
    exact h.shaped
theorem Element.Proper.shaped_cons : ∀ {d : Nat} {x : Element} {es : List Element},
    Element.Proper d x → Formula.shapedTail es → Formula.shaped (x :: es)
  | _, _, _, .number, hs | _, _, _, .var, hs => by rwa [Formula.shaped]
  | _, _, _, .call _ _ h, hs => by
    rw [Formula.shaped, hs, Bool.and_true]
    exact Formula.allShaped_of_forall fun a ha => (h a ha).shaped
  | _, _, _, .group h, hs => by
    rw [Formula.shaped, hs, Bool.and_true]
    exact h.shaped
end

/-! ### Texts resolve to proper formulas -/

theorem Formula.Proper.signed {d : Nat} {x : Element} {es : Formula} (hx : Element.Proper d x)
    (hs : Formula.ProperTail d es) (negated : Bool) :
    Formula.Proper d ((if negated then [.negate] else []) ++ x :: es) := by
  cases negated with
  | true => exact .negated hx hs
  | false => exact .plain hx hs

namespace Resolver

variable {r : Resolver} {d : Nat} {gs : List Group} {steps : List Step}

/-- The expressions of a group, of which there is one at least, resolve to nothing but formulas that
are proper one level below `d`. -/
def Nested (r : Resolver) (d : Nat) (g : Group) : Prop :=
  g.children ≠ [] ∧ ∃ d', d = d' + 1 ∧
    ∀ c ∈ g.children, ∀ f, r.resolve c = .ok f → Formula.Proper d' f

/-- Does the function that is looked up have the arity that was asked for? -/
def Fitting (r : Resolver) : Prop := ∀ name n f, r.lookup name n = some f → f.arity = n

theorem fitting_table (table : FunctionTable) (numbers : NumberReader) :
    Fitting ⟨table.lookup, numbers⟩ :=
  fun _ _ _ h => (FunctionTable.lookup_eq_some h).2

theorem Gives.proper {x : Operand} {y : Element} {u : List Char} (h : r.Gives x gs y)
    (hr : r.Fitting) (hx : x.Spelled u) (hgs : ∀ g ∈ gs, r.Nested d g) : Element.Proper d y := by
  cases h with
  | @group g c f hc h =>
    obtain ⟨-, d', rfl, hf⟩ := hgs g (List.mem_singleton_self g)
    exact .group (hf c (hc ▸ List.mem_singleton_self c) f h)
  | @call name _ f arguments hf h =>
    obtain ⟨g, later, rfl⟩ : ∃ g later, gs = g :: later := by
      rcases gs with _ | ⟨g, later⟩
      · cases hx
      · exact ⟨g, later, rfl⟩
    obtain ⟨hne, d', rfl, -⟩ := hgs g (List.mem_cons_self ..)
    have nonempty : arguments ≠ [] := by
      rintro rfl
      rw [List.map_nil, List.map_eq_nil_iff, List.flatMap_cons] at h
      exact hne (List.append_eq_nil_iff.mp h).1
    refine .call nonempty (hr _ _ _ hf).symm fun a ha => ?_
    have ha : Except.ok a ∈ ((g :: later).flatMap Group.children).map r.resolve :=
      h ▸ List.mem_map_of_mem ha
    obtain ⟨c, hc, hresolve⟩ := List.mem_map.mp ha
    obtain ⟨g', hg', hc⟩ := List.mem_flatMap.mp hc
    obtain ⟨-, d'', heq, hproper⟩ := hgs g' hg'
    obtain rfl : d' = d'' := Nat.succ.inj heq
    exact hproper c hc a hresolve
  | var => exact .var
  | number => exact .number

theorem Gives.proper_signed {negated : Bool} {x : Operand} {y : Element} {u : List Char}
    {es : Formula} (hy : r.Gives x gs y) (h : Unary negated x u) (hr : r.Fitting)
    (hgs : ∀ g ∈ gs, r.Nested d g) (hs : Formula.ProperTail d es) :
    Formula.Proper d ((if negated then [.negate] else []) ++ y :: es) := by
  cases h with
  | negated h => exact .signed (hy.proper hr h hgs) hs _
  | plain h _ => exact .signed (hy.proper hr h hgs) hs _

theorem GivesAll.properTail {n : Nat} {w : List Char} {f : Formula} (hw : Pairs n steps w)
    (h : r.GivesAll steps gs f) (hr : r.Fitting) (hgs : ∀ g ∈ gs, r.Nested d g) :
    Formula.ProperTail d f := by
  induction hw generalizing gs f with
  | nil =>
    cases h
    exact .nil
  | cons hu _ ih =>
    cases h with
    | cons hy h =>
      rw [List.forall_mem_append] at hgs
      exact .cons (hy.proper_signed hu hr hgs.1 (ih h hgs.2))

theorem GivesAll.proper {w : List Char} {f : Formula} (hw : Content steps w)
    (h : r.GivesAll steps gs f) (hr : r.Fitting) (hgs : ∀ g ∈ gs, r.Nested d g) :
    Formula.Proper d f := by
  cases hw with
  | mk hu hs =>
    cases h with
    | cons hy h =>
      rw [List.forall_mem_append] at hgs
      exact hy.proper_signed hu hr hgs.1 (h.properTail hs hr hgs.2)

/-- By induction on the depth: the groups of an expression are nested one level less. -/
theorem proper_of_spelled (hr : r.Fitting) {pos : Nat} {e : Expression} {w : List Char}
    {f : Formula} (h : e.Spelled d pos w) (hf : r.resolve e = .ok f) : Formula.Proper d f := by
  induction d using Nat.strong_induction_on generalizing pos e w f with
  | _ d ih =>
    obtain ⟨steps, gs, left, hc, hgroups, hall⟩ := (resolve_eq_ok_iff h.marked).mp hf
    refine hall.proper hc hr fun g hg => ?_
    obtain ⟨_, _, _, -, hgroup⟩ := h.group_of_mem (hgroups ▸ List.mem_append_left left hg)
    cases hgroup with
    | @mk d' _ _ children _ hs =>
      refine ⟨hs.ne_nil, d', rfl, fun c hc f hf => ?_⟩
      obtain ⟨_, _, _, -, hchild⟩ := hs.of_mem hc
      exact ih d' (Nat.lt_succ_self d') hchild hf

end Resolver

/-- The formula of an input is proper, with groups and calls nested as deep as the settings allow at
most, and its evaluation never misses a value. -/
theorem Calculation.ofRaw_proper {settings : Settings} {table : FunctionTable} {numbers : NumberReader}
    {raw : String} {c : Calculation} (h : ofRaw settings ⟨table.lookup, numbers⟩ raw = .ok c) :
    Formula.Proper settings.maxDepth c.formula ∧
      ∀ context, c.evaluate context ≠ .error (.evaluate .nothingToEvaluate) := by
  obtain ⟨t, ht, h⟩ := bind_eq_ok h
  obtain ⟨f, hf, h⟩ := bind_eq_ok h
  obtain rfl := Except.ok.inj h
  rw [mapError_eq_ok_iff] at ht hf
  have proper : Formula.Proper settings.maxDepth f :=
    Resolver.proper_of_spelled (Resolver.fitting_table table numbers) (Tree.ofRaw_eq_ok_iff.mp ht).2
      (Resolver.ofTree_eq_ok_iff.mp hf)
  refine ⟨proper, fun context h => ?_⟩
  obtain ⟨fault, hfault, h⟩ := mapError_eq_error h
  rw [Failure.evaluate.inj h] at hfault
  exact Formula.evaluate_ne_nothing proper.shaped hfault

theorem Calculation.ofRaw_proper_negated_call :
    ∃ c, ofRaw {} ⟨Builtin.table.lookup, .exact⟩ "-max(1, [x])" = .ok c ∧
      Formula.Proper 256 c.formula ∧
      ∀ context, c.evaluate context ≠ .error (.evaluate .nothingToEvaluate) := by
  have accepted : (ofRaw {} ⟨Builtin.table.lookup, .exact⟩ "-max(1, [x])").isOk := by
    decide +kernel
  rcases h : ofRaw {} ⟨Builtin.table.lookup, .exact⟩ "-max(1, [x])" with failure | c
  · rw [h] at accepted
    cases accepted
  · exact ⟨c, rfl, ofRaw_proper h⟩

end Reckon
