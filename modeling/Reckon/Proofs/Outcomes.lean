import Mathlib
import Reckon.Proofs.Lists
import Reckon.Proofs.Matching

/-!
# The ways of matching, in order

`outcomes` lists the places where a pattern can end, the preferred one first. A run takes the first
of them that its continuation accepts (`run_eq_findSome?`), so what is matched is a matter of this
list alone: which places are in it, and which of them comes first.

Which places are in it is said by `Reads`, a relation between a pattern, the characters it reads and
the marks it passes, without the text around (`reads_of_mem_outcomes`, `mem_outcomes_of_reads`). That
the first place is also the farthest is `Greedy`. Neither speaks of anchors: `Reads` has no rule for
them.
-/

namespace Reckon

namespace Pattern

variable {β : Type}

/-! ### Outcomes -/

/-- The places after at most `fuel` rounds of `body`, each of which reads something. -/
def rounds (body : Cursor → List Cursor) : Nat → Cursor → List Cursor
  | 0, c => [c]
  | fuel + 1, c =>
    ((body c).filter fun d => d.rest.length < c.rest.length).flatMap (rounds body fuel) ++ [c]

/-- The places where a pattern can end, the preferred one first. -/
def outcomes : Pattern → Cursor → List Cursor
  | empty, c => [c]
  | set s, c => (c.next s).toList
  | textStart, c => if c.pos = 0 then [c] else []
  | textEnd, c => if c.rest = [] then [c] else []
  | cat p q, c => (p.outcomes c).flatMap q.outcomes
  | alt p q, c => p.outcomes c ++ q.outcomes c
  | star p, c => rounds p.outcomes c.rest.length c
  | plus p, c => (p.outcomes c).flatMap fun d => rounds p.outcomes d.rest.length d
  | opt p, c => p.outcomes c ++ [c]
  | group i p, c => (p.outcomes (c.mark (.opened i))).map fun d => d.mark (.closed i)

theorem iterate_eq_rounds {p : Pattern} (hp : ∀ (k : Cursor → Option β) c,
    p.run k c = (p.outcomes c).findSome? k) (k : Cursor → Option β) (fuel : Nat) (c : Cursor) :
    iterate p.run k fuel c = (rounds p.outcomes fuel c).findSome? k := by
  induction fuel generalizing c with
  | zero => simp [iterate, rounds]
  | succ fuel ih =>
    rw [iterate, rounds, findSome?_concat, findSome?_flatMap, hp, findSome?_ite, funext ih]

theorem run_eq_findSome? (p : Pattern) (k : Cursor → Option β) (c : Cursor) :
    p.run k c = (p.outcomes c).findSome? k := by
  induction p generalizing k c with
  | empty => simp [run, outcomes]
  | set s => cases h : c.next s <;> simp [run, outcomes, h]
  | textStart => by_cases h : c.pos = 0 <;> simp [run, outcomes, h]
  | textEnd => by_cases h : c.rest = [] <;> simp [run, outcomes, h]
  | cat p q hp hq => rw [run, outcomes, findSome?_flatMap, hp, funext fun d => hq k d]
  | alt p q hp hq => rw [run, outcomes, List.findSome?_append, hp, hq]; simp
  | star p hp => exact iterate_eq_rounds hp k _ c
  | plus p hp =>
    rw [run, outcomes, findSome?_flatMap, hp]
    exact congrArg (List.findSome? · _) (funext fun d => iterate_eq_rounds hp k _ d)
  | opt p hp => rw [run, outcomes, findSome?_concat, hp]
  | group i p hp => rw [run, outcomes, hp, List.findSome?_map]; rfl

theorem matchStart_eq_head? (p : Pattern) (text : List Char) :
    p.matchStart text = (p.outcomes (.ofText text)).head? := by
  rw [matchStart, find, run_eq_findSome?]
  cases p.outcomes (.ofText text) <;> simp

theorem matchAll_eq_find? (p : Pattern) (text : List Char) :
    p.matchAll text = (p.outcomes (.ofText text)).find? fun c => c.rest.isEmpty := by
  rw [matchAll, find, run_eq_findSome?]
  induction p.outcomes (.ofText text) with
  | nil => rfl
  | cons c cs ih => rw [List.findSome?_cons, List.find?_cons, ih]; cases c.rest.isEmpty <;> simp

/-! ### Rounds without a bound -/

theorem rounds_eq (p : Pattern) (m n : Nat) (c : Cursor) (hm : c.rest.length ≤ m)
    (hn : c.rest.length ≤ n) : rounds p.outcomes m c = rounds p.outcomes n c := by
  induction m generalizing n c with
  | zero =>
    have h0 : c.rest.length = 0 := by omega
    cases n with
    | zero => rfl
    | succ n => simp [rounds, h0]
  | succ m ih =>
    cases n with
    | zero =>
      have h0 : c.rest.length = 0 := by omega
      simp [rounds, h0]
    | succ n =>
      rw [rounds, rounds]
      congr 1
      refine List.flatMap_congr fun d hd => ?_
      have := (List.mem_filter.mp hd).2
      simp only [decide_eq_true_eq] at this
      exact ih n d (by omega) (by omega)

theorem outcomes_star (p : Pattern) (c : Cursor) :
    (star p).outcomes c = ((p.outcomes c).filter fun d => d.rest.length < c.rest.length).flatMap
      (star p).outcomes ++ [c] := by
  have h : (star p).outcomes c = rounds p.outcomes (c.rest.length + 1) c :=
    rounds_eq p _ _ c le_rfl (by omega)
  rw [h, rounds]
  congr 1
  refine List.flatMap_congr fun d hd => ?_
  have := (List.mem_filter.mp hd).2
  simp only [decide_eq_true_eq] at this
  exact rounds_eq p _ _ d (by omega) le_rfl

theorem outcomes_plus (p : Pattern) : (plus p).outcomes = (cat p (star p)).outcomes := rfl

/-! ### What is read -/

/-- `Reads p w pos ms`: from behind `pos` characters `p` reads `w` and passes the marks `ms`, the
latest first. -/
inductive Reads : Pattern → List Char → Nat → List (Mark × Nat) → Prop
  | empty {pos : Nat} : Reads empty [] pos []
  | set {s : CharSet} {x : Char} {pos : Nat} (h : s.mem x) : Reads (set s) [x] pos []
  | cat {p q : Pattern} {u v : List Char} {pos : Nat} {ms ns : List (Mark × Nat)}
      (hp : Reads p u pos ms) (hq : Reads q v (pos + u.length) ns) :
      Reads (cat p q) (u ++ v) pos (ns ++ ms)
  | left {p q : Pattern} {w : List Char} {pos : Nat} {ms : List (Mark × Nat)}
      (hp : Reads p w pos ms) : Reads (alt p q) w pos ms
  | right {p q : Pattern} {w : List Char} {pos : Nat} {ms : List (Mark × Nat)}
      (hq : Reads q w pos ms) : Reads (alt p q) w pos ms
  | stop {p : Pattern} {pos : Nat} : Reads (star p) [] pos []
  | round {p : Pattern} {u v : List Char} {pos : Nat} {ms ns : List (Mark × Nat)} (hu : u ≠ [])
      (hp : Reads p u pos ms) (hs : Reads (star p) v (pos + u.length) ns) :
      Reads (star p) (u ++ v) pos (ns ++ ms)
  | plus {p : Pattern} {w : List Char} {pos : Nat} {ms : List (Mark × Nat)}
      (h : Reads (cat p (star p)) w pos ms) : Reads (plus p) w pos ms
  | skip {p : Pattern} {pos : Nat} : Reads (opt p) [] pos []
  | take {p : Pattern} {w : List Char} {pos : Nat} {ms : List (Mark × Nat)}
      (hp : Reads p w pos ms) : Reads (opt p) w pos ms
  | group {i : Nat} {p : Pattern} {w : List Char} {pos : Nat} {ms : List (Mark × Nat)}
      (hp : Reads p w pos ms) :
      Reads (group i p) w pos ((.closed i, pos + w.length) :: (ms ++ [(.opened i, pos)]))

/-- Has the pattern no anchor? -/
def free : Pattern → Bool
  | empty | set _ => true
  | textStart | textEnd => false
  | cat p q | alt p q => p.free && q.free
  | star p | plus p | opt p | group _ p => p.free

end Pattern

/-- From `c` to `d` lie the characters `w` and the marks `ms`, the latest first. -/
structure Cursor.Passes (c : Cursor) (w : List Char) (ms : List (Mark × Nat)) (d : Cursor) :
    Prop where
  rest : c.rest = w ++ d.rest
  pos : d.pos = c.pos + w.length
  marks : d.marks = ms ++ c.marks

namespace Cursor.Passes
variable {c d e : Cursor} {u v : List Char} {ms ns : List (Mark × Nat)}

theorem refl (c : Cursor) : c.Passes [] [] c := ⟨rfl, rfl, rfl⟩

theorem trans (h : c.Passes u ms d) (h' : d.Passes v ns e) : c.Passes (u ++ v) (ns ++ ms) e :=
  ⟨by rw [h.rest, h'.rest, List.append_assoc],
   by rw [h'.pos, h.pos, List.length_append, Nat.add_assoc],
   by rw [h'.marks, h.marks, List.append_assoc]⟩

theorem split (h : c.Passes (u ++ v) (ns ++ ms) e) : ∃ d, c.Passes u ms d ∧ d.Passes v ns e := by
  refine ⟨⟨v ++ e.rest, c.pos + u.length, ms ++ c.marks⟩, ⟨?_, rfl, rfl⟩, ⟨rfl, ?_, ?_⟩⟩
  · rw [h.rest, List.append_assoc]
  · rw [h.pos, List.length_append, Nat.add_assoc]
  · rw [h.marks, List.append_assoc]

theorem unique (h : c.Passes u ms d) (h' : c.Passes u ms e) : d = e := by
  have h1 := h.rest.symm.trans h'.rest
  obtain ⟨dr, dp, dm⟩ := d
  obtain ⟨er, ep, em⟩ := e
  obtain rfl : dr = er := List.append_cancel_left h1
  obtain rfl : dp = ep := h.pos.trans h'.pos.symm
  obtain rfl : dm = em := h.marks.trans h'.marks.symm
  rfl

theorem next {s : CharSet} : c.next s = some d ↔ ∃ x, s.mem x ∧ c.Passes [x] [] d := by
  obtain ⟨rest, pos, marks⟩ := c
  constructor
  · intro h
    cases rest with
    | nil => cases h
    | cons x xs =>
      by_cases hx : s.mem x
      · simp only [Cursor.next, hx, if_true, Option.some.injEq] at h
        subst h
        exact ⟨x, hx, rfl, rfl, rfl⟩
      · simp [Cursor.next, hx] at h
  · rintro ⟨x, hx, h⟩
    obtain rfl : rest = x :: d.rest := h.rest
    simp only [Cursor.next, hx, if_true, Option.some.injEq]
    have h' : Passes ⟨x :: d.rest, pos, marks⟩ [x] [] ⟨d.rest, pos + 1, marks⟩ := ⟨rfl, rfl, rfl⟩
    exact h'.unique h

theorem group {i : Nat} (h : (c.mark (.opened i)).Passes u ms d) :
    c.Passes u ((.closed i, c.pos + u.length) :: (ms ++ [(.opened i, c.pos)]))
      (d.mark (.closed i)) :=
  ⟨h.rest, h.pos, by rw [Cursor.mark, h.marks, h.pos]; simp [Cursor.mark]⟩

end Cursor.Passes

namespace Pattern

variable {p : Pattern} {c d : Cursor} {w : List Char} {ms : List (Mark × Nat)}

theorem mem_outcomes_of_reads {pos : Nat} (h : Reads p w pos ms) (hpos : c.pos = pos)
    (hd : c.Passes w ms d) : d ∈ p.outcomes c := by
  induction h generalizing c d with
  | empty => exact List.mem_singleton.mpr (hd.unique (.refl c))
  | set h => exact Option.mem_toList.mpr (Cursor.Passes.next.mpr ⟨_, h, hd⟩)
  | cat _ _ ihp ihq =>
    obtain ⟨e, h1, h2⟩ := hd.split
    exact List.mem_flatMap.mpr ⟨e, ihp hpos h1, ihq (by rw [h1.pos, hpos]) h2⟩
  | left _ ih => exact List.mem_append_left _ (ih hpos hd)
  | right _ ih => exact List.mem_append_right _ (ih hpos hd)
  | stop =>
    rw [outcomes_star]
    exact List.mem_append_right _ (List.mem_singleton.mpr (hd.unique (.refl c)))
  | round hu _ _ ihp ihs =>
    obtain ⟨e, h1, h2⟩ := hd.split
    rw [outcomes_star]
    refine List.mem_append_left _ (List.mem_flatMap.mpr
      ⟨e, List.mem_filter.mpr ⟨ihp hpos h1, ?_⟩, ihs (by rw [h1.pos, hpos]) h2⟩)
    have := List.length_pos_iff.mpr hu
    rw [h1.rest, List.length_append, decide_eq_true_eq]
    omega
  | plus _ ih => exact ih hpos hd
  | skip => exact List.mem_append_right _ (List.mem_singleton.mpr (hd.unique (.refl c)))
  | take _ ih => exact List.mem_append_left _ (ih hpos hd)
  | @group i p w pos ms _ ih =>
    obtain ⟨dr, dp, dm⟩ := d
    have e : (c.mark (.opened i)).Passes w ms
        ⟨dr, c.pos + w.length, ms ++ (c.mark (.opened i)).marks⟩ := ⟨hd.rest, rfl, rfl⟩
    subst hpos
    exact List.mem_map.mpr ⟨_, ih rfl e, e.group.unique hd⟩

theorem Reads.mem_outcomes {t : List Char} (h : Reads p w c.pos ms) (hw : c.rest = w ++ t) :
    (⟨t, c.pos + w.length, ms ++ c.marks⟩ : Cursor) ∈ p.outcomes c :=
  mem_outcomes_of_reads h rfl ⟨hw, rfl, rfl⟩

/-- What lies between a place and an outcome of a repetition is read, if this holds of one round. -/
theorem reads_star_of_mem_outcomes
    (hp : ∀ c d, d ∈ p.outcomes c → ∃ w ms, Reads p w c.pos ms ∧ c.Passes w ms d) {n : Nat}
    (hn : c.rest.length ≤ n) (h : d ∈ (star p).outcomes c) :
    ∃ w ms, Reads (star p) w c.pos ms ∧ c.Passes w ms d := by
  -- each round reads something, so what is left bounds the rounds
  induction n generalizing c d with
  | zero =>
    have h0 : c.rest.length = 0 := by omega
    rw [outcomes_star] at h
    simp only [h0, Nat.not_lt_zero, decide_false, List.filter_false, List.flatMap_nil,
      List.nil_append, List.mem_singleton] at h
    exact h ▸ ⟨[], [], .stop, .refl d⟩
  | succ n ih =>
    rw [outcomes_star] at h
    rcases List.mem_append.mp h with h | h
    · obtain ⟨e, he, h⟩ := List.mem_flatMap.mp h
      obtain ⟨he, hlt⟩ := List.mem_filter.mp he
      rw [decide_eq_true_eq] at hlt
      obtain ⟨u, ms, hu, hce⟩ := hp c e he
      obtain ⟨v, ns, hv, hed⟩ := ih (by omega) h
      refine ⟨u ++ v, ns ++ ms, .round ?_ hu (hce.pos ▸ hv), hce.trans hed⟩
      rintro rfl
      rw [hce.rest] at hlt
      exact absurd hlt (lt_irrefl _)
    · rw [List.mem_singleton.mp h]
      exact ⟨[], [], .stop, .refl c⟩

/-- What lies between a place and an outcome is read. -/
theorem reads_of_mem_outcomes (hp : p.free) (h : d ∈ p.outcomes c) :
    ∃ w ms, Reads p w c.pos ms ∧ c.Passes w ms d := by
  induction p generalizing c d with
  | empty => rw [List.mem_singleton.mp h]; exact ⟨[], [], .empty, .refl c⟩
  | set s =>
    obtain ⟨x, hx, hd⟩ := Cursor.Passes.next.mp (Option.mem_toList.mp h)
    exact ⟨[x], [], .set hx, hd⟩
  | textStart => cases hp
  | textEnd => cases hp
  | cat p q ihp ihq =>
    simp only [free, Bool.and_eq_true] at hp
    obtain ⟨e, he, hd⟩ := List.mem_flatMap.mp h
    obtain ⟨u, ms, hu, hce⟩ := ihp hp.1 he
    obtain ⟨v, ns, hv, hed⟩ := ihq hp.2 hd
    exact ⟨u ++ v, ns ++ ms, .cat hu (hce.pos ▸ hv), hce.trans hed⟩
  | alt p q ihp ihq =>
    simp only [free, Bool.and_eq_true] at hp
    rcases List.mem_append.mp h with h | h
    · obtain ⟨w, ms, hw, hd⟩ := ihp hp.1 h
      exact ⟨w, ms, .left hw, hd⟩
    · obtain ⟨w, ms, hw, hd⟩ := ihq hp.2 h
      exact ⟨w, ms, .right hw, hd⟩
  | star p ih => exact reads_star_of_mem_outcomes (fun c d => ih hp) le_rfl h
  | plus p ih =>
    obtain ⟨e, he, hd⟩ := List.mem_flatMap.mp h
    obtain ⟨u, ms, hu, hce⟩ := ih hp he
    obtain ⟨v, ns, hv, hed⟩ := reads_star_of_mem_outcomes (fun c d => ih hp) le_rfl hd
    exact ⟨u ++ v, ns ++ ms, .plus (.cat hu (hce.pos ▸ hv)), hce.trans hed⟩
  | opt p ih =>
    rcases List.mem_append.mp h with h | h
    · obtain ⟨w, ms, hw, hd⟩ := ih hp h
      exact ⟨w, ms, .take hw, hd⟩
    · rw [List.mem_singleton.mp h]
      exact ⟨[], [], .skip, .refl c⟩
  | group i p ih =>
    obtain ⟨e, he, rfl⟩ := List.mem_map.mp h
    obtain ⟨w, ms, hw, hd⟩ := ih hp he
    exact ⟨w, _, .group hw, hd.group⟩

theorem reads_set_iff {s : CharSet} {pos : Nat} :
    Reads (set s) w pos ms ↔ ∃ x, s.mem x ∧ w = [x] ∧ ms = [] := by
  constructor
  · rintro (h | _)
    exact ⟨_, ‹_›, rfl, rfl⟩
  · rintro ⟨x, hx, rfl, rfl⟩
    exact .set hx

theorem reads_cat_iff {q : Pattern} {pos : Nat} :
    Reads (cat p q) w pos ms ↔ ∃ u v ks ns, Reads p u pos ks ∧ Reads q v (pos + u.length) ns ∧
      w = u ++ v ∧ ms = ns ++ ks := by
  constructor
  · rintro (h | _)
    exact ⟨_, _, _, _, ‹_›, ‹_›, rfl, rfl⟩
  · rintro ⟨u, v, ks, ns, hu, hv, rfl, rfl⟩
    exact .cat hu hv

theorem reads_alt_iff {q : Pattern} {pos : Nat} :
    Reads (alt p q) w pos ms ↔ Reads p w pos ms ∨ Reads q w pos ms := by
  constructor
  · rintro (h | _)
    exacts [.inl ‹_›, .inr ‹_›]
  · rintro (h | h)
    exacts [.left h, .right h]

theorem reads_opt_iff {pos : Nat} :
    Reads (opt p) w pos ms ↔ Reads p w pos ms ∨ w = [] ∧ ms = [] := by
  constructor
  · rintro (h | _)
    exacts [.inr ⟨rfl, rfl⟩, .inl ‹_›]
  · rintro (h | ⟨rfl, rfl⟩)
    exacts [.take h, .skip]

theorem reads_plus_iff {pos : Nat} :
    Reads (plus p) w pos ms ↔ Reads (cat p (star p)) w pos ms := by
  constructor
  · rintro (h | _)
    exact ‹_›
  · exact .plus

theorem reads_group_iff {i pos : Nat} :
    Reads (group i p) w pos ms ↔ ∃ ns, Reads p w pos ns ∧
      ms = (.closed i, pos + w.length) :: (ns ++ [(.opened i, pos)]) := by
  constructor
  · rintro (h | _)
    exact ⟨_, ‹_›, rfl⟩
  · rintro ⟨ns, h, rfl⟩
    exact .group h

/-- Rounds of a set read any number of its characters. -/
theorem reads_star_set_iff {s : CharSet} {pos : Nat} :
    Reads (star (set s)) w pos ms ↔ (∀ x ∈ w, s.mem x) ∧ ms = [] := by
  constructor
  · intro h
    generalize hp : star (set s) = p at h
    induction h with
    | stop => simp
    | round hu hr hs ihr ihs =>
      cases hp
      obtain ⟨x, hx, rfl, rfl⟩ := reads_set_iff.mp hr
      obtain ⟨hv, rfl⟩ := ihs rfl
      exact ⟨fun y hy => (List.mem_cons.mp hy).elim (fun e => e ▸ hx) (hv y), rfl⟩
    | _ => cases hp
  · rintro ⟨h, rfl⟩
    induction w generalizing pos with
    | nil => exact .stop
    | cons x xs ih =>
      exact .round (List.cons_ne_nil x []) (.set (h x (List.mem_cons_self ..)))
        (ih fun y hy => h y (List.mem_cons_of_mem x hy))

/-- A group around a set has at most one outcome. -/
theorem group_set_cases (i : Nat) (s : CharSet) (c : Cursor) :
    ((group i (set s)).outcomes c = [] ∧ ∀ x ∈ c.rest.head?, ¬ s.mem x) ∨
      ∃ x d, s.mem x ∧ c.Passes [x] [(.closed i, c.pos + 1), (.opened i, c.pos)] d ∧
        (group i (set s)).outcomes c = [d] := by
  have all : (group i (set s)).outcomes c =
      ((c.mark (.opened i)).next s).toList.map fun d => d.mark (.closed i) := rfl
  cases hd : (c.mark (.opened i)).next s with
  | none =>
    refine .inl ⟨by rw [all, hd]; rfl, fun x hx hs => ?_⟩
    obtain ⟨t, ht⟩ := List.head?_eq_some_iff.mp hx
    have hrest : (c.mark (.opened i)).rest = x :: t := ht
    rw [Cursor.next, hrest] at hd
    simp [hs] at hd
  | some d =>
    obtain ⟨x, hx, hp⟩ := Cursor.Passes.next.mp hd
    exact .inr ⟨x, _, hx, hp.group, by rw [all, hd]; rfl⟩

end Pattern

end Reckon
