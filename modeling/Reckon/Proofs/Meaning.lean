import Mathlib
import Reckon.Proofs.Content
import Reckon.Proofs.Groups

/-!
# Which formula an expression resolves to

`Resolver.Gives` says which element an operand with some groups becomes, and `Resolver.GivesAll` which
formula some steps become with their groups one after the other. Neither asks where in a text the
steps stand. An expression resolves to the formula that the steps of its content give with its groups
(`Resolver.resolve_eq_ok_iff`).
-/

namespace Reckon

theorem firstFault_eq_ok_iff {ε α : Type} {xs : List (Except ε α)} {ys : List α} :
    firstFault xs = .ok ys ↔ xs = ys.map .ok := by
  induction xs generalizing ys with
  | nil =>
    rw [firstFault, Except.ok.injEq]
    constructor
    · rintro rfl
      rfl
    · exact fun h => (List.map_eq_nil_iff.mp h.symm).symm
  | cons x xs ih =>
    rcases x with fault | x
    · constructor
      · exact nofun
      · intro h
        rcases ys with _ | ⟨y, ys⟩
        · cases h
        · cases (List.cons.inj h).1
    · rw [firstFault]
      constructor
      · intro h
        obtain ⟨zs, hzs, rfl⟩ := map_eq_ok h
        rw [List.map_cons, ih.mp hzs]
      · intro h
        rcases ys with _ | ⟨y, ys⟩
        · cases h
        · obtain ⟨hx, hxs⟩ := List.cons.inj h
          rw [ih.mpr hxs, Except.ok.inj hx]
          rfl

/-- How many groups the operand takes. -/
def Operand.count : Operand → Nat
  | .placeholder => 1
  | .call _ n => n
  | .var _ | .number _ _ => 0

theorem Step.Counted.length_eq {s : Step} {e : Expression} (h : s.Counted e) :
    (s.groups e).length = s.operand.count := by
  rcases hs : s.operand with _ | ⟨name, n⟩ | name | ⟨literal, parts⟩
  · simp only [Step.Counted, hs] at h
    obtain ⟨g, hg⟩ := h
    rw [hg]
    rfl
  · simp only [Step.Counted, hs] at h
    exact h
  · simp [Step.groups, hs, Operand.count]
  · simp [Step.groups, hs, Operand.count]

theorem length_flatMap_groups {steps : List Step} {e : Expression} (h : ∀ s ∈ steps, s.Counted e) :
    (steps.flatMap (Step.groups · e)).length = (steps.map fun s => s.operand.count).sum := by
  rw [List.length_flatMap]
  exact congrArg List.sum (List.map_congr_left fun s hs => (h s hs).length_eq)

namespace Resolver

variable {r : Resolver} {e : Expression} {s : Step} {steps : List Step} {gs left : List Group}
  {x : Element} {f : Formula}

/-! ### Groups with their formulas -/

def resolved (r : Resolver) (g : Group) : ResolvedGroup := ⟨g, g.children.map r.resolve⟩

theorem resolveAll_eq (r : Resolver) (es : List Expression) : r.resolveAll es = es.map r.resolve := by
  induction es with
  | nil => rfl
  | cons e es ih => rw [resolveAll, ih]; rfl

theorem resolveItems_eq (r : Resolver) (items : List Item) :
    r.resolveItems items = (items.filterMap Item.group?).map r.resolved := by
  induction items with
  | nil => rfl
  | cons i items ih =>
    cases i with
    | char c => rw [resolveItems, ih]; rfl
    | group g =>
      obtain ⟨b, start, stop, children⟩ := g
      rw [resolveItems, ih, resolveGroup, resolveAll_eq]
      rfl

theorem resolve_eq (r : Resolver) (e : Expression) :
    r.resolve e = r.formula e (e.groups.map r.resolved) := by
  obtain ⟨start, stop, items⟩ := e
  rw [resolve, resolveItems_eq]
  rfl

theorem length_of_map_ok {es : List Expression} {fs : List Formula}
    (h : es.map r.resolve = fs.map .ok) : es.length = fs.length := by
  simpa using congrArg List.length h

/-! ### What steps give -/

/-- The operand with these groups is the element. -/
inductive Gives (r : Resolver) : Operand → List Group → Element → Prop
  | group {g : Group} {c : Expression} {f : Formula} (hc : g.children = [c])
      (h : r.resolve c = .ok f) : Gives r .placeholder [g] (.group f)
  | call {name : List Char} {gs : List Group} {f : Callable} {arguments : List Formula}
      (hf : r.lookup (String.ofList name) arguments.length = some f)
      (h : (gs.flatMap Group.children).map r.resolve = arguments.map .ok) :
      Gives r (.call name gs.length) gs (.call f arguments)
  | var {name : List Char} : Gives r (.var name) [] (.var (String.ofList name))
  | number {literal : List Char} {p : NumberParts} {x : Fraction} (h : r.numbers p.entries = .ok x) :
      Gives r (.number literal (some p)) [] (.number x)

/-- The signs before the operand of a step. -/
def signs (s : Step) : Formula :=
  (s.operator.map Element.operator).toList ++ if s.negated then [.negate] else []

/-- The steps with these groups, one step after the other, are the formula. -/
inductive GivesAll (r : Resolver) : List Step → List Group → Formula → Prop
  | nil : GivesAll r [] [] []
  | cons {s : Step} {steps : List Step} {gs later : List Group} {x : Element} {f : Formula}
      (h : r.Gives s.operand gs x) (hs : GivesAll r steps later f) :
      GivesAll r (s :: steps) (gs ++ later) (signs s ++ x :: f)

theorem Gives.length_eq {x : Operand} {y : Element} (h : r.Gives x gs y) : gs.length = x.count := by
  cases h <;> rfl

theorem GivesAll.length_eq (h : r.GivesAll steps gs f) :
    gs.length = (steps.map fun s => s.operand.count).sum := by
  induction h with
  | nil => rfl
  | cons h _ ih => rw [List.length_append, h.length_eq, ih, List.map_cons, List.sum_cons]

/-! ### Elements -/

theorem flatMap_formulas (r : Resolver) (gs : List Group) :
    (gs.map r.resolved).flatMap ResolvedGroup.formulas = (gs.flatMap Group.children).map r.resolve := by
  rw [List.flatMap_map, List.map_flatMap]
  rfl

/-- A step takes its groups from the front of those that are left. -/
theorem Gives.element_eq (h : r.Gives s.operand gs x) (e : Expression) (left : List Group) :
    r.element e ((gs ++ left).map r.resolved) s = .ok (x, left.map r.resolved) := by
  obtain ⟨operator, negated, operand, offset⟩ := s
  simp only at h
  cases h with
  | @group g c f hc h =>
    simp only [element, List.singleton_append, List.map_cons, resolved, hc, h]
    rfl
  | @call name gs f arguments hf h =>
    have enough : ¬ ((gs ++ left).map r.resolved).length < gs.length := by
      rw [List.length_map, List.length_append]
      omega
    have hgs : (gs.map r.resolved).length = gs.length := List.length_map _
    simp only [element]
    rw [if_neg enough, List.map_append, List.take_left' hgs, List.drop_left' hgs, flatMap_formulas, h,
      List.length_map, hf]
    simp only [firstFault_eq_ok_iff.mpr rfl]
    rfl
  | var => rfl
  | @number literal p x h =>
    simp only [element, h]
    rfl

theorem gives_of_element {groups : List Group} {rest : List ResolvedGroup}
    (h : r.element e (groups.map r.resolved) s = .ok (x, rest)) :
    ∃ gs left, groups = gs ++ left ∧ rest = left.map r.resolved ∧ r.Gives s.operand gs x := by
  obtain ⟨operator, negated, operand, offset⟩ := s
  rcases operand with _ | ⟨name, count⟩ | name | ⟨literal, _ | p⟩
  · rcases groups with _ | ⟨g, left⟩
    · cases h
    · simp only [element, List.map_cons, resolved] at h
      rcases hg : g.children with _ | ⟨c, _ | ⟨c', cs⟩⟩
      · simp only [hg] at h; cases h
      · simp only [hg, List.map_cons, List.map_nil] at h
        obtain ⟨f, hf, hx⟩ := map_eq_ok h
        obtain ⟨rfl, rfl⟩ := Prod.mk.inj hx
        exact ⟨[g], left, rfl, rfl, .group hg hf⟩
      · simp only [hg] at h; cases h
  · simp only [element] at h
    split at h
    · cases h
    · next enough =>
      rw [List.length_map] at enough
      have hcount : (groups.take count).length = count := List.length_take_of_le (Nat.not_lt.mp enough)
      rw [← List.map_take, ← List.map_drop, flatMap_formulas] at h
      split at h
      · cases h
      · next f hf =>
        obtain ⟨arguments, ha, hx⟩ := map_eq_ok h
        obtain ⟨rfl, rfl⟩ := Prod.mk.inj hx
        have harguments := firstFault_eq_ok_iff.mp ha
        rw [harguments, List.length_map] at hf
        have gives := Gives.call (r := r) hf harguments
        rw [hcount] at gives
        exact ⟨_, _, (List.take_append_drop count groups).symm, rfl, gives⟩
  · obtain ⟨rfl, rfl⟩ := Prod.mk.inj (Except.ok.inj h)
    exact ⟨[], groups, rfl, rfl, .var⟩
  · cases h
  · simp only [element] at h
    obtain ⟨y, hy, hx⟩ := map_eq_ok h
    obtain ⟨rfl, rfl⟩ := Prod.mk.inj hx
    exact ⟨[], groups, rfl, rfl, .number hy⟩

theorem GivesAll.elements_eq (h : r.GivesAll steps gs f) (e : Expression) (left : List Group) :
    r.elements e ((gs ++ left).map r.resolved) steps = .ok (f, left.map r.resolved) := by
  induction h generalizing left with
  | nil => rfl
  | cons h _ ih =>
    rw [List.append_assoc, elements, h.element_eq e]
    simp only [ih]
    rfl

theorem givesAll_of_elements {groups : List Group} {rest : List ResolvedGroup}
    (h : r.elements e (groups.map r.resolved) steps = .ok (f, rest)) :
    ∃ gs left, groups = gs ++ left ∧ rest = left.map r.resolved ∧ r.GivesAll steps gs f := by
  induction steps generalizing groups f rest with
  | nil =>
    obtain ⟨rfl, rfl⟩ := Prod.mk.inj (Except.ok.inj h)
    exact ⟨[], groups, rfl, rfl, .nil⟩
  | cons s steps ih =>
    rw [elements] at h
    rcases hx : r.element e (groups.map r.resolved) s with fault | ⟨x, between⟩
    · rw [hx] at h; cases h
    · rw [hx] at h
      obtain ⟨gs, left, rfl, rfl, hgives⟩ := gives_of_element hx
      simp only at h
      obtain ⟨⟨f', rest'⟩, hl, hf⟩ := map_eq_ok h
      obtain ⟨rfl, rfl⟩ := Prod.mk.inj hf
      obtain ⟨later, left, rfl, rfl, hall⟩ := ih hl
      exact ⟨gs ++ later, left, (List.append_assoc ..).symm, rfl, .cons hgives hall⟩

/-! ### Expressions -/

/-- The reading that reaches the end of the content has the steps of the content. -/
theorem ofContent_eq_iff (hm : e.Marked) {stop : Nat} :
    Reading.ofContent e.content = .ok (some ⟨steps, stop⟩) ∧ e.content.length ≤ stop ↔
      Content steps e.content ∧ stop = e.content.length := by
  rcases Reading.ofContent_spec hm.brace_not_mem with ⟨hr, hn⟩ | ⟨steps', w, hf, hr⟩
  · rw [hr]
    constructor
    · rintro ⟨h, _⟩
      cases h
    · exact fun h => absurd h.1 (hn steps _ [] (List.append_nil _).symm)
  · rw [hr]
    obtain ⟨t, ht⟩ := hf.split
    have hlength : e.content.length = w.length + t.length := by rw [ht, List.length_append]
    have all (h : e.content.length ≤ w.length) : w = e.content := by
      obtain rfl := List.length_eq_zero_iff.mp (by omega : t.length = 0)
      rw [ht, List.append_nil]
    constructor
    · rintro ⟨h, hle⟩
      obtain ⟨rfl, rfl⟩ := Reading.mk.inj (Option.some.inj (Except.ok.inj h))
      have hw := all hle
      exact ⟨hw ▸ hf.reads, congrArg List.length hw⟩
    · rintro ⟨h, rfl⟩
      have hw := all (hf.le steps _ [] (List.append_nil _).symm h)
      exact ⟨by rw [hf.unique steps (hw ▸ h), hw], le_rfl⟩

theorem resolve_eq_ok_iff (hm : e.Marked) : r.resolve e = .ok f ↔
    ∃ steps gs left, Content steps e.content ∧ e.groups = gs ++ left ∧ r.GivesAll steps gs f := by
  rw [resolve_eq, formula]
  constructor
  · intro h
    rcases hr : Reading.ofContent e.content with fault | _ | ⟨steps, stop⟩
    · rw [hr] at h; cases h
    · rw [hr] at h; cases h
    · simp only [hr] at h
      rcases hl : r.elements e (e.groups.map r.resolved) steps with fault | ⟨f', rest⟩
      · rw [hl] at h; cases h
      · simp only [hl] at h
        split at h
        · cases h
        · next hstop =>
          obtain rfl := Except.ok.inj h
          obtain ⟨gs, left, hgroups, -, hall⟩ := givesAll_of_elements hl
          have hc := (ofContent_eq_iff hm).mp ⟨hr, Nat.not_lt.mp hstop⟩
          exact ⟨steps, gs, left, hc.1, hgroups, hall⟩
  · rintro ⟨steps, gs, left, hc, hgroups, hall⟩
    rw [((ofContent_eq_iff hm).mpr ⟨hc, rfl⟩).1, hgroups]
    simp only [hall.elements_eq, lt_irrefl, if_false]

end Resolver

end Reckon
