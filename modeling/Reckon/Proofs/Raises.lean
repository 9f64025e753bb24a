import Mathlib
import Reckon.Proofs.Resolve

/-!
# Where the faults of the resolver come from

A fault of an expression is one that it raises itself or one of an expression in its groups. What it
raises itself is read off its content (`Resolver.Raises`): no step can be taken, something is left
behind the steps, or a step has no meaning (`Resolver.StepRaises`). So every fault of a tree is
raised by some expression inside of it (`Resolver.resolve_eq_error`). Steps always have the groups
they ask for, so none of the faults is a defect, unless the reader of numbers answers with one.
-/

namespace Reckon

/-! ### Where a step stands -/

section
variable {g : Bool} {n : Nat} {x : Operand} {s : Step} {steps : List Step} {u w : List Char}

theorem Unary.operand_at (h : Unary g x u) :
    ∃ a v, u = a ++ v ∧ a.length = g.toNat ∧ x.Spelled v := by
  cases h with
  | negated h => exact ⟨[minusSign], _, rfl, rfl, h⟩
  | plain h => exact ⟨[], _, rfl, rfl, h⟩

theorem Pairs.operand_at (h : Pairs n steps w) (hs : s ∈ steps) :
    ∃ u x v, w = u ++ (x ++ v) ∧ n + u.length = s.offset ∧ s.operand.Spelled x := by
  induction h with
  | nil => cases hs
  | @cons n o g x steps u w hu _ ih =>
    rcases List.mem_cons.mp hs with rfl | hs
    · obtain ⟨a, v, rfl, ha, hx⟩ := hu.operand_at
      refine ⟨o.symbol :: a, v, w, by simp, ?_, hx⟩
      rw [List.length_cons, ha]
      exact Nat.add_right_comm n g.toNat 1
    · obtain ⟨a, v, t, rfl, ha, hx⟩ := ih hs
      refine ⟨o.symbol :: (u ++ a), v, t, by simp, ?_, hx⟩
      rw [← ha, List.length_cons, List.length_append]
      omega

/-- The operand of a step stands at its offset. -/
theorem Content.operand_at (h : Content steps w) (hs : s ∈ steps) :
    ∃ u x v, w = u ++ (x ++ v) ∧ u.length = s.offset ∧ s.operand.Spelled x := by
  cases h with
  | @mk g x steps u w hu h =>
    rcases List.mem_cons.mp hs with rfl | hs
    · obtain ⟨a, v, rfl, ha, hx⟩ := hu.operand_at
      exact ⟨a, v, w, List.append_assoc .., ha, hx⟩
    · obtain ⟨a, v, t, rfl, ha, hx⟩ := h.operand_at hs
      exact ⟨u ++ a, v, t, (List.append_assoc ..).symm, by rw [List.length_append, ha], hx⟩

end

theorem error_mem_of_firstFault {ε α : Type} {xs : List (Except ε α)} {fault : ε}
    (h : firstFault xs = .error fault) : .error fault ∈ xs := by
  induction xs with
  | nil => cases h
  | cons x xs ih =>
    rcases x with fault' | x
    · obtain rfl := Except.error.inj h
      exact List.mem_cons_self
    · rcases hxs : firstFault xs with fault' | ys
      · rw [firstFault, hxs] at h
        obtain rfl := Except.error.inj h
        exact List.mem_cons_of_mem _ (ih hxs)
      · rw [firstFault, hxs] at h
        cases h

namespace Resolver

variable {r : Resolver} {e : Expression} {s : Step} {steps : List Step} {left : List Group}
  {fault : ResolveFault}

/-! ### What an expression raises -/

/-- The step of `e` has no meaning, whatever its groups hold. -/
inductive StepRaises (r : Resolver) (e : Expression) (s : Step) : ResolveFault → Prop
  | ambiguousGroup {g : Group} (hs : s.operand = .placeholder) (hg : s.groups e = [g])
      (hd : g.dimension ≠ 1) : StepRaises r e s (.ambiguousGroup g.dimension g.start)
  | unknownFunction {name : List Char} {n arity : Nat} (hs : s.operand = .call name n)
      (ha : ((s.groups e).map Group.dimension).sum = arity)
      (hf : r.lookup (String.ofList name) arity = none) :
      StepRaises r e s (.unknownFunction (String.ofList name) arity (e.realPosition s.offset))
  | number {literal : List Char} {p : NumberParts} {fault : ResolveFault}
      (hs : s.operand = .number literal (some p)) (h : r.numbers p.entries = .error fault) :
      StepRaises r e s fault

/-- The fault is of `e` itself. -/
inductive Raises (r : Resolver) (e : Expression) : ResolveFault → Prop
  | noOperand : Raises r e (.noOperand e.start)
  | strayContent {steps : List Step} {w t : List Char} (hc : Content steps w)
      (ht : e.content = w ++ t) (hne : t ≠ []) :
      Raises r e (.strayContent (e.realPosition w.length))
  | step {steps : List Step} {s : Step} {w t : List Char} {fault : ResolveFault}
      (hr : Reading.ofContent e.content = .ok (some ⟨steps, w.length⟩)) (hc : Content steps w)
      (ht : e.content = w ++ t) (hs : s ∈ steps) (h : r.StepRaises e s fault) : Raises r e fault

/-- A defect is none of these, so it is an answer of the reader of numbers. -/
theorem Raises.numbers_of_defect {d : Defect} (h : r.Raises e (.defect d)) :
    ∃ entries, r.numbers entries = .error (.defect d) := by
  cases h with
  | step _ _ _ _ h =>
    cases h with
    | number _ h => exact ⟨_, h⟩

/-! ### Steps -/

/-- A step that has its groups fails by itself or by an expression in them. -/
theorem element_eq_error (hc : s.Counted e)
    (h : r.element e ((s.groups e ++ left).map r.resolved) s = .error fault) :
    r.StepRaises e s fault ∨ ∃ g ∈ s.groups e, ∃ c ∈ g.children, r.resolve c = .error fault := by
  rcases hs : s.operand with _ | ⟨name, n⟩ | name | ⟨literal, parts⟩
  · simp only [Step.Counted, hs] at hc
    obtain ⟨g, hg⟩ := hc
    simp only [element, hs, hg, List.singleton_append, List.map_cons, resolved] at h
    rcases hchildren : g.children with _ | ⟨c, _ | ⟨c', cs⟩⟩
    · simp only [hchildren] at h
      obtain rfl := Except.error.inj h
      exact .inl (.ambiguousGroup hs hg (by simp [Group.dimension, hchildren]))
    · simp only [hchildren, List.map_cons, List.map_nil] at h
      refine .inr ⟨g, hg ▸ List.mem_singleton_self g, c, hchildren ▸ List.mem_singleton_self c, ?_⟩
      exact map_eq_error h
    · simp only [hchildren] at h
      obtain rfl := Except.error.inj h
      exact .inl (.ambiguousGroup hs hg (by simp [Group.dimension, hchildren]))
  · simp only [Step.Counted, hs] at hc
    have enough : ¬ ((s.groups e ++ left).map r.resolved).length < n := by
      rw [List.length_map, List.length_append]
      omega
    have count : ((s.groups e).flatMap Group.children).length =
        ((s.groups e).map Group.dimension).sum := by
      rw [List.length_flatMap]
      rfl
    simp only [element, hs] at h
    rw [if_neg enough, List.map_append, List.take_left' ((List.length_map _).trans hc),
      flatMap_formulas, List.length_map, count] at h
    split at h
    · next hf =>
      obtain rfl := Except.error.inj h
      exact .inl (.unknownFunction hs rfl hf)
    · obtain ⟨c, hmem, hfault⟩ := List.mem_map.mp (error_mem_of_firstFault (map_eq_error h))
      obtain ⟨g, hg, hmem⟩ := List.mem_flatMap.mp hmem
      exact .inr ⟨g, hg, c, hmem, hfault⟩
  · simp only [element, hs] at h
    cases h
  · simp only [Step.Counted, hs] at hc
    obtain ⟨p, rfl⟩ := hc
    simp only [element, hs] at h
    exact .inl (.number hs (map_eq_error h))

/-- The first step that fails gives the fault. -/
theorem elements_eq_error (hc : ∀ s ∈ steps, s.Counted e)
    (h : r.elements e ((steps.flatMap (Step.groups · e) ++ left).map r.resolved) steps = .error fault) :
    ∃ s ∈ steps, r.StepRaises e s fault ∨
      ∃ g ∈ s.groups e, ∃ c ∈ g.children, r.resolve c = .error fault := by
  induction steps with
  | nil => cases h
  | cons s steps ih =>
    rw [List.forall_mem_cons] at hc
    rw [elements, List.flatMap_cons, List.append_assoc] at h
    rcases hx : r.element e ((s.groups e ++ (steps.flatMap (Step.groups · e) ++ left)).map r.resolved) s
      with fault' | ⟨x, rest⟩
    · simp only [hx] at h
      obtain rfl := Except.error.inj h
      exact ⟨s, List.mem_cons_self, element_eq_error hc.1 hx⟩
    · obtain ⟨gs, left', hleft, rfl, hgives⟩ := gives_of_element hx
      -- an element takes as many groups as the step has, so the others are those of the later steps
      obtain ⟨-, rfl⟩ := List.append_inj hleft (hc.1.length_eq.trans hgives.length_eq.symm)
      simp only [hx] at h
      obtain ⟨s', hs', hfault⟩ := ih hc.2 (map_eq_error h)
      exact ⟨s', List.mem_cons_of_mem s hs', hfault⟩

/-! ### Expressions -/

theorem formula_eq_error (hm : e.Marked) (h : r.resolve e = .error fault) :
    r.Raises e fault ∨ ∃ g ∈ e.groups, ∃ c ∈ g.children, r.resolve c = .error fault := by
  rw [resolve_eq, formula] at h
  rcases Reading.ofContent_spec hm.brace_not_mem with ⟨hr, -⟩ | ⟨steps, w, hf, hr⟩
  · rw [hr] at h
    obtain rfl := Except.error.inj h
    exact .inl .noOperand
  · obtain ⟨t, ht⟩ := hf.split
    obtain ⟨is, js, hs, hi, -⟩ := List.map_eq_append_iff.mp ht
    obtain ⟨hgroups, hcount⟩ := hf.reads.groups_eq hm hs hi
    have all : e.groups = steps.flatMap (Step.groups · e) ++ js.filterMap Item.group? := by
      rw [Expression.groups, hs, List.filterMap_append, hgroups]
    rw [hr] at h
    simp only at h
    split at h
    · next fault' hx =>
      obtain rfl := Except.error.inj h
      rw [all] at hx
      obtain ⟨s, hmem, hraises | ⟨g, hg, c, hc, hfault⟩⟩ := elements_eq_error hcount hx
      · exact .inl (.step hr hf.reads ht hmem hraises)
      · exact .inr ⟨g, groups_subset s e hg, c, hc, hfault⟩
    · split at h
      · next hlt =>
        obtain rfl := Except.error.inj h
        refine .inl (.strayContent hf.reads ht ?_)
        rintro rfl
        rw [ht, List.append_nil] at hlt
        exact lt_irrefl _ hlt
      · cases h

/-- A fault of an expression is raised by one inside of it. -/
theorem resolve_eq_error (hs : ∃ d pos w, Expression.Spelled d pos e w)
    (h : r.resolve e = .error fault) : ∃ e', e.Inside e' ∧ r.Raises e' fault := by
  induction hn : sizeOf e using Nat.strong_induction_on generalizing e with
  | _ n ih =>
    obtain ⟨d, pos, w, hw⟩ := hs
    rcases formula_eq_error hw.marked h with hraises | ⟨g, hg, c, hc, hfault⟩
    · exact ⟨e, .root, hraises⟩
    · have inside : e.Inside c := .child .root hg hc
      obtain ⟨e', he', hraises⟩ :=
        ih (sizeOf c) (hn ▸ sizeOf_child hg hc) (inside.spelled ⟨d, pos, w, hw⟩) hfault rfl
      exact ⟨e', inside.trans he', hraises⟩

end Resolver

end Reckon
