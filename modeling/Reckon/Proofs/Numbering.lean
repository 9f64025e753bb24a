import Mathlib
import Reckon.Proofs.Lists
import Reckon.Grammar.Component

/-!
# The numbers of named parts

A template numbers its groups while it is read: a `(` takes the next number and a spliced part takes
as many as it has groups. A group joins its parent only when it is closed, so the parts alone do not
show the numbers in order while groups are open. With the open groups put back where they stand,
each before its children, they do: `Assembly.numbers` is `1, 2, …` at every point of a template
(`Assembly.Numbered.read`). So the parts of a component in preorder have the numbers `1, 2, …`, and
what a chain of names leads to first is what has the smallest number.
-/

namespace Reckon

namespace Part

/-- The numbers of parts, in preorder. -/
def numbers (ps : List Part) : List Nat := (preorders ps).map Part.group

@[simp] theorem numbers_nil : numbers [] = [] := by rw [numbers, preorders, List.map_nil]

theorem preorders_append (ps qs : List Part) : preorders (ps ++ qs) = preorders ps ++ preorders qs := by
  induction ps with
  | nil => rw [preorders, List.nil_append, List.nil_append]
  | cons p ps ih => rw [List.cons_append, preorders, preorders, ih, List.append_assoc]

theorem numbers_append (ps qs : List Part) : numbers (ps ++ qs) = numbers ps ++ numbers qs := by
  rw [numbers, preorders_append, List.map_append, numbers, numbers]

theorem numbers_singleton (name : PartName) (group : Nat) (children : List Part) :
    numbers [⟨name, group, children⟩] = group :: numbers children := by
  rw [numbers, preorders, preorders, List.append_nil, preorder, List.map_cons, numbers]

mutual
theorem length_preorder : ∀ p : Part, (preorder p).length = p.size
  | ⟨_, _, children⟩ => by
    rw [preorder, List.length_cons, length_preorders children, size, Nat.add_comm]
theorem length_preorders : ∀ ps : List Part, (preorders ps).length = sizes ps
  | [] => by rw [preorders, sizes, List.length_nil]
  | p :: ps => by
    rw [preorders, List.length_append, length_preorder p, length_preorders ps, sizes]
end

theorem length_numbers (ps : List Part) : (numbers ps).length = sizes ps := by
  rw [numbers, List.length_map, length_preorders]

mutual
theorem preorder_shift (offset : Nat) :
    ∀ p : Part, (preorder (p.shift offset)).map Part.group = (preorder p).map (·.group + offset)
  | ⟨_, _, children⟩ => by
    rw [shift, preorder, preorder, List.map_cons, List.map_cons, preorders_shifts offset children]
theorem preorders_shifts (offset : Nat) : ∀ ps : List Part,
    (preorders (shifts offset ps)).map Part.group = (preorders ps).map (·.group + offset)
  | [] => by rw [shifts, preorders, List.map_nil, List.map_nil]
  | p :: ps => by
    rw [shifts, preorders, preorders, List.map_append, List.map_append, preorder_shift offset p,
      preorders_shifts offset ps]
end

theorem numbers_shifts (offset : Nat) (ps : List Part) :
    numbers (shifts offset ps) = (numbers ps).map (offset + ·) := by
  rw [numbers, preorders_shifts, numbers, List.map_map]
  exact List.map_congr_left fun p _ => Nat.add_comm p.group offset

/-! ### Chains of names -/

/-- A chain of names leads from the outermost parts to a part. -/
inductive Leads : List PartName → List Part → Part → Prop
  | here {ps : List Part} {p : Part} : p ∈ ps → Leads [p.name] ps p
  | inner {path : List PartName} {ps : List Part} {p q : Part} :
      p ∈ ps → Leads path p.children q → Leads (p.name :: path) ps q

/-- All that a chain of names leads to, in preorder. -/
def followed : List PartName → List Part → List Part
  | [], _ => []
  | name :: names, ps =>
    (ps.filter fun p => p.name = name).flatMap fun p =>
      if names.isEmpty then [p] else followed names p.children

theorem find?_eq_head? (path : List PartName) (ps : List Part) :
    find? path ps = (followed path ps).head? := by
  induction path generalizing ps with
  | nil => rw [find?, followed, List.head?_nil]
  | cons name names ih =>
    rw [find?, followed, List.head?_flatMap]
    congr 1
    funext p
    cases names with
    | nil => rfl
    | cons => exact ih p.children

theorem mem_followed {path : List PartName} {ps : List Part} {q : Part} :
    q ∈ followed path ps ↔ Leads path ps q := by
  induction path generalizing ps with
  | nil => exact ⟨nofun, nofun⟩
  | cons name names ih =>
    simp only [followed, List.mem_flatMap, List.mem_filter, decide_eq_true_eq]
    constructor
    · rintro ⟨p, ⟨hp, rfl⟩, hq⟩
      cases names with
      | nil =>
        obtain rfl := List.mem_singleton.mp hq
        exact .here hp
      | cons => exact .inner hp (ih.mp hq)
    · intro h
      cases h with
      | here hq => exact ⟨q, ⟨hq, rfl⟩, List.mem_singleton_self q⟩
      | @inner _ _ p _ hp hq =>
        refine ⟨p, ⟨hp, rfl⟩, ?_⟩
        cases names with
        | nil => cases hq
        | cons => exact ih.mpr hq

theorem preorders_eq_flatMap (ps : List Part) : preorders ps = ps.flatMap preorder := by
  induction ps with
  | nil => rw [preorders, List.flatMap_nil]
  | cons p ps ih => rw [preorders, ih, List.flatMap_cons]

theorem preorder_eq : ∀ p : Part, p.preorder = p :: preorders p.children
  | ⟨_, _, _⟩ => by rw [preorder]

/-- What a chain leads to stands in preorder. -/
theorem followed_sublist (path : List PartName) (ps : List Part) :
    List.Sublist (followed path ps) (preorders ps) := by
  induction path generalizing ps with
  | nil => exact List.nil_sublist _
  | cons name names ih =>
    rw [followed, preorders_eq_flatMap]
    refine (List.filter_sublist.flatMap _).trans (List.Sublist.flatMap_right _ fun p _ => ?_)
    rw [preorder_eq]
    cases names with
    | nil => exact (List.nil_sublist _).cons_cons p
    | cons => exact (ih p.children).cons p

/-- If the numbers grow in preorder, a look-up finds the smallest one. -/
theorem find?_eq_some_iff {ps : List Part} (h : (numbers ps).Pairwise (· < ·))
    (path : List PartName) (p : Part) :
    find? path ps = some p ↔ Leads path ps p ∧ ∀ q, Leads path ps q → p.group ≤ q.group := by
  have hlt : (followed path ps).Pairwise (·.group < ·.group) :=
    (List.pairwise_map.mp h).sublist (followed_sublist path ps)
  simp only [← mem_followed, find?_eq_head?]
  rcases hf : followed path ps with _ | ⟨x, xs⟩
  · exact ⟨nofun, fun ⟨hp, _⟩ => nomatch hp⟩
  · rw [hf] at hlt
    have hx : ∀ q ∈ xs, x.group < q.group := (List.pairwise_cons.mp hlt).1
    rw [List.head?_cons, Option.some.injEq]
    constructor
    · rintro rfl
      refine ⟨List.mem_cons_self, fun q hq => ?_⟩
      rcases List.mem_cons.mp hq with rfl | hq
      · exact le_rfl
      · exact (hx q hq).le
    · rintro ⟨hp, hle⟩
      rcases List.mem_cons.mp hp with rfl | hp
      · rfl
      · exact absurd (hle x List.mem_cons_self) (hx p hp).not_ge

theorem find?_eq_none_iff {path : List PartName} {ps : List Part} :
    find? path ps = none ↔ ∀ p, ¬ Leads path ps p := by
  simp only [find?_eq_head?, List.head?_eq_none_iff, List.eq_nil_iff_forall_not_mem, mem_followed]

end Part

namespace Component

variable {E : Engine}

/-! ### Templates -/

namespace Assembly

/-- The numbers of the finished parts and of the open groups, each open group before its children.
-/
def numbers (a : Assembly E) : List Nat :=
  Part.numbers a.roots ++ a.opened.reverse.flatMap fun o => o.group :: Part.numbers o.children

theorem numbers_add (a : Assembly E) (ps : List Part) :
    (a.add ps).numbers = a.numbers ++ Part.numbers ps := by
  rw [add]
  split
  · next h => simp [numbers, h, Part.numbers_append]
  · next o os h => simp [numbers, h, Part.numbers_append]

theorem allocated_add (a : Assembly E) (ps : List Part) : (a.add ps).allocated = a.allocated := by
  rw [add]
  split <;> rfl

theorem components_add (a : Assembly E) (ps : List Part) : (a.add ps).components = a.components := by
  rw [add]
  split <;> rfl

/-- The numbers given so far are `1, 2, …`, and those of the parts to come are so on their own. -/
structure Numbered (a : Assembly E) : Prop where
  numbers : a.numbers = List.range' 1 a.allocated
  components : ∀ c ∈ a.components, Part.numbers c.parts = List.range' 1 c.groupCount

variable {a b : Assembly E}

theorem Numbered.start (names : List PartName) {components : List (Component E)}
    (h : ∀ c ∈ components, Part.numbers c.parts = List.range' 1 c.groupCount) :
    (Assembly.start names components).Numbered :=
  ⟨by simp [Assembly.start, Assembly.numbers], h⟩

theorem Numbered.write (h : a.Numbered) (c : Char) : (a.write c).Numbered := ⟨h.numbers, h.components⟩

theorem Numbered.splice (h : a.Numbered) : a.splice.Numbered := by
  rw [Assembly.splice]
  split
  · exact h
  · next c cs hcs =>
    have hc : ∀ d ∈ c :: cs, Part.numbers d.parts = List.range' 1 d.groupCount := hcs ▸ h.components
    refine ⟨?_, fun d hd => hc d (List.mem_cons_of_mem c hd)⟩
    calc (a.add (Part.shifts a.allocated c.parts)).numbers
        = List.range' 1 a.allocated ++ (List.range' 1 c.groupCount).map (a.allocated + ·) := by
          rw [numbers_add, Part.numbers_shifts, h.numbers, hc c List.mem_cons_self]
      _ = List.range' 1 (a.allocated + Part.sizes c.parts) := by
          rw [List.map_add_range', Nat.add_comm a.allocated 1, List.range'_append_1]
          rfl

theorem Numbered.openGroup (h : a.Numbered) : a.openGroup.Numbered := by
  rw [Assembly.openGroup]
  split
  · exact h
  · refine ⟨?_, h.components⟩
    have hn : Assembly.numbers a = List.range' 1 a.allocated := h.numbers
    rw [Assembly.numbers] at hn
    rw [List.range'_1_concat, ← hn]
    simp [Assembly.numbers, Nat.add_comm]

theorem Numbered.closeGroup (h : a.Numbered) (hb : a.closeGroup = some b) : b.Numbered := by
  rw [Assembly.closeGroup] at hb
  split at hb
  · cases hb
  · next o os ho =>
    obtain rfl := Option.some.inj hb
    refine Numbered.write ⟨?_, ?_⟩ ')'
    · rw [numbers_add, allocated_add, Part.numbers_singleton, ← h.numbers]
      simp [Assembly.numbers, ho]
    · rw [components_add]
      exact h.components

/-- A template gives the numbers in order. -/
theorem Numbered.read {text : List Char} (h : a.Numbered) (hb : Assembly.read text a = some b) :
    b.Numbered ∧ b.opened = [] := by
  induction text using placeholders.induct generalizing a with
  | case1 =>
    rw [Assembly.read] at hb
    split at hb
    · next ho =>
      obtain rfl := Option.some.inj hb
      exact ⟨h, List.isEmpty_iff.mp ho⟩
    · cases hb
  | case2 rest ih =>
    rw [Assembly.read] at hb
    exact ih h.splice hb
  | case3 c rest hc ih =>
    rw [Assembly.read.eq_3 a c rest hc] at hb
    split at hb
    · exact ih h.openGroup hb
    · split at hb
      · obtain ⟨m, hm, hb⟩ := Option.bind_eq_some_iff.mp hb
        exact ih (h.closeGroup hm) hb
      · exact ih (h.write c) hb

end Assembly

/-! ### Components -/

/-- Components that some nesting of `leaf` and `compose` gives. -/
inductive Built : Component E → Prop
  | leaf {description form : String} {c : Component E} : leaf description form = .ok c → Built c
  | compose {description template : String} {names : List PartName} {parts : List (Component E)}
      {c : Component E} : compose description template names parts = .ok c →
        (∀ p ∈ parts, Built p) → Built c

variable {c : Component E}

theorem ofSource_eq_ok {description template : String} {source : List Char} {parts : List Part}
    (h : ofSource description template source parts = .ok c) :
    c.source = source ∧ c.parts = parts := by
  rw [ofSource] at h
  split at h
  · obtain rfl := Except.ok.inj h
    exact ⟨rfl, rfl⟩
  · cases h

theorem leaf_eq_ok {description form : String} (h : leaf description form = .ok c) :
    c.captureCount = 0 ∧ c.source = form.toList ∧ c.parts = [] := by
  obtain ⟨d, hd, h⟩ := bind_eq_ok h
  extract_lets groups at h
  split at h
  · next hgroups =>
    obtain rfl := Except.ok.inj h
    exact ⟨hgroups, ofSource_eq_ok hd⟩
  · cases h

theorem compose_eq_ok {description template : String} {names : List PartName}
    {parts : List (Component E)} (h : compose description template names parts = .ok c) :
    names.length = template.toList.count '(' ∧ parts.length = placeholders template.toList ∧
      ∃ a, Assembly.read template.toList (.start names parts) = some a ∧
        c.source = a.source.reverse ∧ c.parts = a.roots := by
  rw [compose] at h
  split at h
  · cases h
  · next hnames =>
    split at h
    · cases h
    · next hparts =>
      split at h
      · cases h
      · next a ha =>
        exact ⟨(not_not.mp hnames).symm, (not_not.mp hparts).symm, a, ha, ofSource_eq_ok h⟩

theorem Built.numbers (h : Built c) :
    Part.numbers c.parts = List.range' 1 c.groupCount := by
  induction h with
  | leaf h => rw [groupCount, (leaf_eq_ok h).2.2, Part.numbers_nil, Part.sizes, List.range'_zero]
  | @compose _ _ names parts c h _ ih =>
    obtain ⟨-, -, a, ha, -, hc⟩ := compose_eq_ok h
    obtain ⟨hn, ho⟩ := (Assembly.Numbered.start names ih).read ha
    have hroots : Part.numbers a.roots = List.range' 1 a.allocated := by
      rw [← hn.numbers, Assembly.numbers, ho]
      simp
    have hcount : c.groupCount = a.allocated := by
      rw [groupCount, ← Part.length_numbers, hc, hroots, List.length_range']
    rw [hc, hroots, hcount]

/-- The named groups of a component have the numbers `1, 2, …` in preorder. So a look-up, by number
or not, answers with the group that has the smallest number of all that the chain of names leads to,
and with none exactly if the chain leads nowhere, as the empty one does. -/
theorem Built.find?_preorder (h : Built c) :
    (Part.preorders c.parts).map Part.group = List.range' 1 c.groupCount ∧
      c.find? [] = none ∧
      ∀ path : List PartName,
        (∀ p, c.find? path = some p ↔
          Part.Leads path c.parts p ∧ ∀ q, Part.Leads path c.parts q → p.group ≤ q.group) ∧
        (∀ i, c.group? path = some i ↔
          (∃ p, Part.Leads path c.parts p ∧ p.group = i) ∧
            ∀ q, Part.Leads path c.parts q → i ≤ q.group) ∧
        (c.find? path = none ↔ ∀ p, ¬ Part.Leads path c.parts p) ∧
        (c.group? path = none ↔ ∀ p, ¬ Part.Leads path c.parts p) := by
  have hlt : (Part.numbers c.parts).Pairwise (· < ·) := h.numbers ▸ List.pairwise_lt_range'
  refine ⟨h.numbers, rfl, fun path => ?_⟩
  have hsome : ∀ p, c.find? path = some p ↔
      Part.Leads path c.parts p ∧ ∀ q, Part.Leads path c.parts q → p.group ≤ q.group :=
    Part.find?_eq_some_iff hlt path
  have hnone : c.find? path = none ↔ ∀ p, ¬ Part.Leads path c.parts p := Part.find?_eq_none_iff
  refine ⟨hsome, fun i => ?_, hnone, Option.map_eq_none_iff.trans hnone⟩
  rw [group?, Option.map_eq_some_iff]
  constructor
  · rintro ⟨p, hp, rfl⟩
    obtain ⟨hl, hle⟩ := (hsome p).mp hp
    exact ⟨⟨p, hl, rfl⟩, hle⟩
  · rintro ⟨⟨p, hl, rfl⟩, hle⟩
    exact ⟨p, (hsome p).mpr ⟨hl, hle⟩, rfl⟩

/-- Two siblings have one name, and only the second has what is looked for inside. -/
def siblings : Except GrammarFault Component := do
  let digit ← leaf "digit" "[0-9]"
  let inner ← compose "inner" "x(%s)" [.exponent] [digit]
  compose "outer" "(%s)(%s)(%s)" [.integer, .integer, .integer] [digit, inner, inner]

theorem siblings_find : ∃ c, siblings = .ok c ∧ Built c ∧ c.groupCount = 5 ∧
    c.group? [.integer, .exponent] = some 3 ∧
    ∀ q, Part.Leads [.integer, .exponent] c.parts q → 3 ≤ q.group := by
  have hparts : (siblings.map Component.parts) = .ok
      [⟨.integer, 1, []⟩, ⟨.integer, 2, [⟨.exponent, 3, []⟩]⟩,
        ⟨.integer, 4, [⟨.exponent, 5, []⟩]⟩] := by decide +kernel
  obtain ⟨c, hc, hparts⟩ := map_eq_ok hparts
  obtain ⟨digit, hdigit, h⟩ := bind_eq_ok hc
  obtain ⟨inner, hinner, h⟩ := bind_eq_ok h
  have hd : Built digit := .leaf hdigit
  have hi : Built inner := .compose hinner fun p hp => List.mem_singleton.mp hp ▸ hd
  have hb : Built c := .compose h fun p hp => by
    rcases List.mem_cons.mp hp with rfl | hp
    · exact hd
    · simp only [List.mem_cons, List.not_mem_nil, or_false, or_self] at hp
      exact hp ▸ hi
  have hg : c.group? [.integer, .exponent] = some 3 := by
    rw [group?, find?, hparts]
    decide
  refine ⟨c, hc, hb, ?_, hg, ?_⟩
  · rw [groupCount, hparts]
    decide
  · exact (((hb.find?_preorder.2.2 _).2.1 3).mp hg).2

end Component

end Reckon
