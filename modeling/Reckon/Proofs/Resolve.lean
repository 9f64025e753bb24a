import Mathlib
import Reckon.Proofs.Meaning
import Reckon.Proofs.Tree

/-!
# What the resolver accepts

The steps of the content take the groups from the front of those that are left, and the groups of
the steps are all the groups, in order. A step resolves with its own ones if it gives an element
(`Resolver.resolves_iff`), so the steps resolve if each of them does (`Resolver.elements_ok_iff`),
and an expression resolves if its content is in the language, its steps are admitted and the
expressions inside of it resolve (`Resolver.resolve_ok_iff`). From there it is an induction on the
tree.
-/

namespace Reckon

namespace Resolver

variable {r : Resolver} {e : Expression} {s : Step} {steps : List Step}

/-! ### Steps -/

theorem exists_map_ok {es : List Expression} :
    (∃ fs : List Formula, es.map r.resolve = fs.map .ok) ↔ ∀ e ∈ es, ∃ f, r.resolve e = .ok f := by
  induction es with
  | nil => exact ⟨fun _ => nofun, fun _ => ⟨[], rfl⟩⟩
  | cons e es ih =>
    rw [List.forall_mem_cons, ← ih]
    constructor
    · rintro ⟨_ | ⟨f, fs⟩, h⟩
      · cases h
      · obtain ⟨he, hes⟩ := List.cons.inj h
        exact ⟨⟨f, he⟩, fs, hes⟩
    · rintro ⟨⟨f, he⟩, fs, hes⟩
      exact ⟨f :: fs, by rw [List.map_cons, he, hes]; rfl⟩

theorem resolves_group_iff {g : Group} (hs : s.operand = .placeholder) (hg : s.groups e = [g]) :
    r.Resolves e s ↔ ∃ x, r.Gives .placeholder [g] x := by
  simp only [Resolves, Admits, hs, hg]
  constructor
  · rintro ⟨hone, hresolve⟩
    have hone : g.children.length = 1 := (List.cons.inj hone).1
    obtain ⟨c, hc⟩ := List.length_eq_one_iff.mp hone
    obtain ⟨f, hf⟩ := hresolve g (List.mem_singleton_self g) c (hc ▸ List.mem_singleton_self c)
    exact ⟨_, .group hc hf⟩
  · rintro ⟨x, hx⟩
    cases hx with
    | @group _ c f hc hf =>
      refine ⟨by simp [Group.dimension, hc], ?_⟩
      simp only [List.forall_mem_singleton, hc]
      exact ⟨f, hf⟩

theorem resolves_call_iff {name : List Char} {n : Nat} (hs : s.operand = .call name n)
    (hn : (s.groups e).length = n) : r.Resolves e s ↔ ∃ x, r.Gives (.call name n) (s.groups e) x := by
  generalize hg : s.groups e = gs at hn ⊢
  have count : (gs.map Group.dimension).sum = (gs.flatMap Group.children).length := by
    rw [List.length_flatMap]
    rfl
  have inner : (∀ g ∈ gs, ∀ c ∈ g.children, ∃ f, r.resolve c = .ok f) ↔
      ∃ fs : List Formula, (gs.flatMap Group.children).map r.resolve = fs.map .ok := by
    rw [exists_map_ok]
    simp only [List.mem_flatMap, forall_exists_index, and_imp]
    exact ⟨fun h c g hg hc => h g hg c hc, fun h g hg c hc => h c g hg hc⟩
  simp only [Resolves, Admits, hs, hg, count, inner]
  constructor
  · rintro ⟨hf, fs, hfs⟩
    obtain ⟨f, hf⟩ := Option.isSome_iff_exists.mp hf
    exact hn ▸ ⟨_, .call (length_of_map_ok hfs ▸ hf) hfs⟩
  · rintro ⟨x, hx⟩
    cases hx with
    | call hf hfs => exact ⟨by rw [length_of_map_ok hfs, hf]; rfl, _, hfs⟩

/-- A step that has as many groups as it asks for resolves if it gives an element. -/
theorem resolves_iff (hc : s.Counted e) :
    r.Resolves e s ↔ ∃ x, r.Gives s.operand (s.groups e) x := by
  rcases hs : s.operand with _ | ⟨name, n⟩ | name | ⟨literal, parts⟩
  · simp only [Step.Counted, hs] at hc
    obtain ⟨g, hg⟩ := hc
    rw [hg]
    exact resolves_group_iff hs hg
  · simp only [Step.Counted, hs] at hc
    exact resolves_call_iff hs hc
  · have none : s.groups e = [] := by simp only [Step.groups, hs]
    simp only [Resolves, Admits, hs, none]
    exact ⟨fun _ => ⟨_, .var⟩, fun _ => ⟨trivial, List.forall_mem_nil _⟩⟩
  · have none : s.groups e = [] := by simp only [Step.groups, hs]
    simp only [Resolves, Admits, hs, none]
    constructor
    · rintro ⟨⟨p, x, rfl, hx⟩, _⟩
      exact ⟨_, .number hx⟩
    · rintro ⟨x, hx⟩
      cases hx with
      | number hx => exact ⟨⟨_, _, rfl, hx⟩, List.forall_mem_nil _⟩

theorem exists_givesAll_iff (hc : ∀ s ∈ steps, s.Counted e) :
    (∃ f, r.GivesAll steps (steps.flatMap (Step.groups · e)) f) ↔ ∀ s ∈ steps, r.Resolves e s := by
  induction steps with
  | nil => exact ⟨fun _ => nofun, fun _ => ⟨_, .nil⟩⟩
  | cons s steps ih =>
    rw [List.forall_mem_cons] at hc ⊢
    rw [List.flatMap_cons, resolves_iff hc.1, ← ih hc.2]
    constructor
    · rintro ⟨f, hf⟩
      generalize hgroups : s.groups e ++ steps.flatMap (Step.groups · e) = groups at hf
      cases hf with
      | @cons _ _ gs later x f hx hf =>
        obtain ⟨rfl, rfl⟩ := List.append_inj hgroups (hc.1.length_eq.trans hx.length_eq.symm)
        exact ⟨⟨x, hx⟩, f, hf⟩
    · rintro ⟨⟨x, hx⟩, f, hf⟩
      exact ⟨_, .cons hx hf⟩

theorem elements_ok_iff (hm : e.Marked) {w t : List Char} (hc : Content steps w)
    (hw : e.content = w ++ t) :
    (∃ y, r.elements e (e.groups.map r.resolved) steps = .ok y) ↔ ∀ s ∈ steps, r.Resolves e s := by
  obtain ⟨is, js, hs, hi, _⟩ := List.map_eq_append_iff.mp hw
  obtain ⟨hgroups, hcount⟩ := hc.groups_eq hm hs hi
  have all : e.groups = steps.flatMap (Step.groups · e) ++ js.filterMap Item.group? := by
    rw [Expression.groups, hs, List.filterMap_append, hgroups]
  rw [← exists_givesAll_iff hcount]
  constructor
  · rintro ⟨⟨f, rest⟩, h⟩
    obtain ⟨gs, left, hleft, -, hall⟩ := givesAll_of_elements h
    obtain ⟨rfl, -⟩ := List.append_inj (all.symm.trans hleft)
      ((length_flatMap_groups hcount).trans hall.length_eq.symm)
    exact ⟨f, hall⟩
  · rintro ⟨f, hf⟩
    rw [all]
    exact ⟨_, hf.elements_eq e _⟩

/-! ### Expressions -/

/-- What becomes of an expression, by the longest start of its content that is in the language. -/
theorem resolve_cases (r : Resolver) (hm : e.Marked) :
    (r.resolve e = .error (.noOperand e.start) ∧
      ∀ steps w t, e.content = w ++ t → ¬ Content steps w) ∨
    ∃ steps w, Farthest Content steps w e.content ∧
      ((∃ f, r.resolve e = .ok f) ↔ (∀ s ∈ steps, r.Resolves e s) ∧ w = e.content) ∧
      ((∀ s ∈ steps, r.Resolves e s) → w ≠ e.content →
        r.resolve e = .error (.strayContent (e.realPosition w.length))) := by
  rw [resolve_eq, formula]
  rcases Reading.ofContent_spec hm.brace_not_mem with ⟨hr, hn⟩ | ⟨steps, w, hf, hr⟩
  · exact .inl ⟨by rw [hr]; rfl, hn⟩
  · refine .inr ⟨steps, w, hf, ?_⟩
    obtain ⟨t, ht⟩ := hf.split
    rw [hr, ← elements_ok_iff hm hf.reads ht]
    by_cases hw : w = e.content
    · have stop : ¬ w.length < e.content.length := by rw [hw]; exact lt_irrefl _
      refine ⟨?_, fun _ h => absurd hw h⟩
      cases he : r.elements e (e.groups.map r.resolved) steps with
      | error fault =>
        simp only [he]
        constructor
        · rintro ⟨f, h⟩
          cases h
        · rintro ⟨⟨y, h⟩, _⟩
          cases h
      | ok y =>
        refine ⟨fun _ => ⟨⟨y, rfl⟩, hw⟩, fun _ => ⟨y.1, ?_⟩⟩
        simp only [he, if_neg stop]
    · have stray : w.length < e.content.length := by
        rw [ht, List.length_append]
        refine Nat.lt_add_of_pos_right (List.length_pos_iff.mpr ?_)
        rintro rfl
        exact hw (by rw [ht, List.append_nil])
      refine ⟨⟨?_, fun h => absurd h.2 hw⟩, ?_⟩
      · rintro ⟨f, h⟩
        cases he : r.elements e (e.groups.map r.resolved) steps with
        | error fault => simp only [he] at h; cases h
        | ok y => simp only [he, if_pos stray] at h; cases h
      · rintro ⟨y, he⟩ _
        simp only [he, if_pos stray]

/-- An expression resolves if its content is in the language and all its steps resolve. -/
theorem resolve_ok_iff (hm : e.Marked) : (∃ f, r.resolve e = .ok f) ↔
    ∃ steps, Content steps e.content ∧ ∀ s ∈ steps, r.Resolves e s := by
  rcases resolve_cases r hm with ⟨hr, hn⟩ | ⟨steps, w, hf, hok, _⟩
  · rw [hr]
    constructor
    · rintro ⟨f, h⟩
      cases h
    · rintro ⟨steps, hs, _⟩
      exact absurd hs (hn steps _ [] (List.append_nil _).symm)
  · rw [hok]
    constructor
    · rintro ⟨hr, rfl⟩
      exact ⟨steps, hf.reads, hr⟩
    · rintro ⟨steps', hs, hr⟩
      obtain ⟨t, ht⟩ := hf.split
      have hle := hf.le steps' _ [] (List.append_nil _).symm hs
      have hw : w = e.content := by
        rw [ht, List.length_append] at hle
        obtain rfl := List.length_eq_zero_iff.mp (by omega : t.length = 0)
        rw [ht, List.append_nil]
      exact ⟨hf.unique steps' (hw ▸ hs) ▸ hr, hw⟩

theorem resolve_eq_strayContent (hm : e.Marked) (hn : ¬ ∃ steps, Content steps e.content) {n : Nat}
    (hl : Content.Longest steps e.content n) (hr : ∀ s ∈ steps, r.Resolves e s) :
    r.resolve e = .error (.strayContent (e.realPosition n)) := by
  have hlen : (e.content.take n).length = n := List.length_take_of_le hl.le
  rcases resolve_cases r hm with ⟨_, hno⟩ | ⟨steps', w, hf, _, hstray⟩
  · exact absurd hl.content (hno steps _ _ (List.take_append_drop n _).symm)
  · obtain ⟨t, ht⟩ := hf.split
    have htake : e.content.take w.length = w := by rw [ht, List.take_left]
    have hw : w.length = n := by
      refine le_antisymm ?_ ?_
      · exact hl.longest w.length (by rw [ht, List.length_append]; omega) steps' (htake.symm ▸ hf.reads)
      · exact hlen ▸ hf.le steps _ _ (List.take_append_drop n _).symm hl.content
    obtain rfl : steps = steps' := hf.unique steps (by rw [← htake, hw]; exact hl.content)
    rw [← hw]
    exact hstray hr fun h => hn ⟨steps, h ▸ hf.reads⟩

theorem resolve_eq_noOperand (hm : e.Marked)
    (h : ∀ n steps, ¬ Content steps (e.content.take n)) :
    r.resolve e = .error (.noOperand e.start) := by
  rcases resolve_cases r hm with ⟨hr, _⟩ | ⟨steps, w, hf, _⟩
  · exact hr
  · obtain ⟨t, ht⟩ := hf.split
    exact absurd hf.reads (by simpa [ht] using h w.length steps)

/-! ### Trees -/

theorem sizeOf_child {g : Group} {c : Expression} (hg : g ∈ e.groups) (hc : c ∈ g.children) :
    sizeOf c < sizeOf e := by
  obtain ⟨start, stop, items⟩ := e
  obtain ⟨b, start', stop', children⟩ := g
  have hitem := List.sizeOf_lt_of_mem (mem_filterMap_group.mp hg)
  have hchild := List.sizeOf_lt_of_mem hc
  simp only [Item.group.sizeOf_spec, Group.mk.sizeOf_spec, Expression.items] at hitem
  simp only [Group.children] at hchild
  simp only [Expression.mk.sizeOf_spec]
  omega

theorem groups_subset (s : Step) (e : Expression) : s.groups e ⊆ e.groups := by
  intro g hg
  simp only [Step.groups] at hg
  split at hg
  · exact mem_filterMap_group.mpr
      (List.mem_of_mem_drop (List.mem_of_mem_take (mem_filterMap_group.mp hg)))
  · exact mem_filterMap_group.mpr
      (List.mem_of_mem_drop (List.mem_of_mem_take (mem_filterMap_group.mp hg)))
  · cases hg
  · cases hg

theorem resolve_ok_of_accepts (hs : ∃ d pos w, Expression.Spelled d pos e w)
    (h : ∀ e', e.Inside e' → r.Accepts e') : ∃ f, r.resolve e = .ok f := by
  induction hn : sizeOf e using Nat.strong_induction_on generalizing e with
  | _ n ih =>
    obtain ⟨d, pos, w, hw⟩ := hs
    obtain ⟨steps, hc, ha⟩ := h e .root
    refine (resolve_ok_iff hw.marked).mpr ⟨steps, hc, fun s hs => ⟨ha s hs, fun g hg c hcg => ?_⟩⟩
    have hg := groups_subset s e hg
    have inside : e.Inside c := Expression.Inside.child .root hg hcg
    exact ih (sizeOf c) (hn ▸ sizeOf_child hg hcg) (inside.spelled ⟨d, pos, w, hw⟩)
      (fun e' he' => h e' (inside.trans he')) rfl

theorem resolve_ok_of_inside {root : Expression} (hs : ∃ d pos w, Expression.Spelled d pos root w)
    (h : ∃ f, r.resolve root = .ok f) (he : root.Inside e) : ∃ f, r.resolve e = .ok f := by
  induction he with
  | root => exact h
  | @child e c g he hg hc ih =>
    obtain ⟨d, pos, w, hw⟩ := he.spelled hs
    obtain ⟨steps, hcontent, hr⟩ := (resolve_ok_iff hw.marked).mp ih
    -- the group is that of a step, and a step resolves with all that its groups hold
    obtain ⟨hgroups, _⟩ := hcontent.groups_eq hw.marked (List.append_nil _).symm rfl
    obtain ⟨s, hs, hg⟩ := List.mem_flatMap.mp (hgroups ▸ hg : g ∈ steps.flatMap (Step.groups · e))
    exact (hr s hs).2 g hg c hc

theorem ofTree_eq_ok_iff {settings : Settings} {t : Tree} {f : Formula} :
    r.ofTree settings t = .ok f ↔ r.resolve t.root = .ok f :=
  mapError_eq_ok_iff

theorem ofTree_ok_iff {settings : Settings} {t : Tree} :
    (∃ f, r.ofTree settings t = .ok f) ↔ ∃ f, r.resolve t.root = .ok f :=
  exists_congr fun _ => ofTree_eq_ok_iff

/-- The resolver accepts the trees all of whose expressions are in its language. An expression whose
content is not, but whose steps up to there resolve, is rejected where the longest start of its
content ends that is in the language, or at its start if there is none. -/
theorem ofTree_accepts_language {settings : Settings} {raw : String} {t : Tree}
    (h : Tree.ofRaw settings raw = .ok t) (r : Resolver) (settings' : Settings) :
    ((∃ f, r.ofTree settings' t = .ok f) ↔ ∀ e, t.root.Inside e → r.Accepts e) ∧
      ∀ e, t.root.Inside e → (¬ ∃ steps, Content steps e.content) →
        ((∀ n steps, ¬ Content steps (e.content.take n)) →
            r.resolve e = .error (.noOperand e.start)) ∧
          ∀ n steps, Content.Longest steps e.content n → (∀ s ∈ steps, r.Resolves e s) →
            r.resolve e = .error (.strayContent (e.realPosition n)) := by
  have spelled : ∃ d pos w, Expression.Spelled d pos t.root w :=
    ⟨_, _, _, (Tree.ofRaw_eq_ok_iff.mp h).2⟩
  have marked {e : Expression} (he : t.root.Inside e) : e.Marked := by
    obtain ⟨d, pos, w, hw⟩ := he.spelled spelled
    exact hw.marked
  refine ⟨?_, fun e he hn => ⟨resolve_eq_noOperand (marked he), fun n steps hl hr =>
    resolve_eq_strayContent (marked he) hn hl hr⟩⟩
  rw [ofTree_ok_iff]
  constructor
  · intro hok e he
    obtain ⟨steps, hc, hr⟩ := (resolve_ok_iff (marked he)).mp (resolve_ok_of_inside spelled hok he)
    exact ⟨steps, hc, fun s hs => (hr s hs).1⟩
  · exact resolve_ok_of_accepts spelled

theorem ofTree_accepts_negated_group :
    ∃ t, Tree.ofRaw {} "-(x)" = .ok t ∧
      ((∃ f, ofTree ⟨fun _ _ => none, NumberReader.exact⟩ {} t = .ok f) ↔
        ∀ e, t.root.Inside e → Accepts ⟨fun _ _ => none, NumberReader.exact⟩ e) := by
  have h : Tree.ofRaw {} "-(x)" = .ok ⟨⟨['-', '(', 'x', ')'], ['-', '(', 'x', ')'], [0, 1, 2, 3]⟩,
      .mk 0 4 [.char '-', .group (.mk .round 1 3 [.mk 2 3 [.char 'x']])]⟩ := by rfl
  exact ⟨_, h, (ofTree_accepts_language h _ {}).1⟩

end Resolver

end Reckon
