import Mathlib
import Reckon.Pattern.Engine
import Reckon.Proofs.Automaton
import Reckon.Proofs.Embedding
import Reckon.Proofs.Outcomes
import Reckon.Proofs.Pieces

/-!
# What the engine of patterns decides

The pattern of an expression ends where the expression matches up to: each outcome has a match before
it (`Follows.matches_of_mem`) and each match an outcome behind it (`Follows.exists_outcome`). A round of
a repetition that reads nothing is left out by a pattern, which is no loss. So the engine of patterns
keeps both contracts against its notation (`engine_counts`, `engine_decides`).
-/

namespace Reckon

namespace Pattern

variable {p : Regex Atom} {q q' : Pattern} {b w e : List Char} {c d : Cursor} {n : Nat}

/-! ### Patterns of expressions -/

theorem ofRegex_rep {least : Nat} {most : Option Nat} (h : ofRegex (.rep least most p) n = some q) :
    ∃ q', ofRegex p n = some q' ∧ ((least = 0 ∧ most = none ∧ q = star q') ∨
      (least = 1 ∧ most = none ∧ q = plus q') ∨ (least = 0 ∧ most = some 1 ∧ q = opt q')) := by
  match least, most, h with
  | 0, none, h =>
    obtain ⟨q', h', rfl⟩ := Option.map_eq_some_iff.mp h
    exact ⟨q', h', .inl ⟨rfl, rfl, rfl⟩⟩
  | 1, none, h =>
    obtain ⟨q', h', rfl⟩ := Option.map_eq_some_iff.mp h
    exact ⟨q', h', .inr (.inl ⟨rfl, rfl, rfl⟩)⟩
  | 0, some 1, h =>
    obtain ⟨q', h', rfl⟩ := Option.map_eq_some_iff.mp h
    exact ⟨q', h', .inr (.inr ⟨rfl, rfl, rfl⟩)⟩
  | 0, some 0, h | 0, some (_ + 2), h | 1, some _, h | _ + 2, _, h => cases h

theorem length_groups (h : ofRegex p n = some q) : q.groups.length = p.captures := by
  induction p generalizing n q with
  | empty => cases h; rfl
  | atom a => cases h; cases a <;> rfl
  | cat p₁ p₂ ih₁ ih₂ | alt p₁ p₂ ih₁ ih₂ =>
    obtain ⟨q₁, h₁, h⟩ := Option.bind_eq_some_iff.mp h
    obtain ⟨q₂, h₂, h⟩ := Option.bind_eq_some_iff.mp h
    cases h
    rw [groups, List.length_append, ih₁ h₁, ih₂ h₂, Regex.captures]
  | rep least most p ih =>
    obtain ⟨q', h', h⟩ := ofRegex_rep h
    rw [Regex.captures, ← ih h']
    rcases h with ⟨-, -, rfl⟩ | ⟨-, -, rfl⟩ | ⟨-, -, rfl⟩ <;> rfl
  | group captures p ih =>
    cases captures with
    | true =>
      obtain ⟨q', h', rfl⟩ := Option.map_eq_some_iff.mp h
      rw [groups, List.length_cons, ih h', Regex.captures]
    | false => exact ih h

/-! ### Outcomes and matches -/

/-- A pattern ends where an expression matches up to. -/
structure Follows (q : Pattern) (p : Regex Atom) : Prop where
  matches_of_mem {b : List Char} {c d : Cursor} : c.pos = b.length → d ∈ q.outcomes c →
    ∃ w, c.rest = w ++ d.rest ∧ d.pos = c.pos + w.length ∧ p.Matches Atom.sense b w d.rest
  exists_outcome {b w e : List Char} {c : Cursor} : c.pos = b.length → c.rest = w ++ e →
    p.Matches Atom.sense b w e → ∃ d ∈ q.outcomes c, d.rest = e ∧ d.pos = c.pos + w.length

namespace Follows

theorem atom (a : Atom) : a.pattern.Follows (.atom a) := by
  constructor
  · intro b c d hpos hd
    cases a with
    | set s =>
      obtain ⟨x, hx, hp⟩ := Cursor.Passes.next.mp (Option.mem_toList.mp hd)
      exact ⟨[x], hp.rest, hp.pos, x, hx, rfl⟩
    | textStart =>
      rw [Atom.pattern, outcomes] at hd
      split at hd
      · next h0 =>
        obtain rfl := List.mem_singleton.mp hd
        exact ⟨[], rfl, rfl, rfl, List.length_eq_zero_iff.mp (hpos.symm.trans h0)⟩
      · cases hd
    | textEnd =>
      rw [Atom.pattern, outcomes] at hd
      split at hd
      · next hrest =>
        obtain rfl := List.mem_singleton.mp hd
        exact ⟨[], rfl, rfl, rfl, hrest⟩
      · cases hd
  · intro b w e c hpos hrest h
    cases a with
    | set s =>
      obtain ⟨x, hx, rfl⟩ := h
      have hp : c.Passes [x] [] ⟨e, c.pos + 1, c.marks⟩ := ⟨hrest, rfl, rfl⟩
      exact ⟨_, Option.mem_toList.mpr (Cursor.Passes.next.mpr ⟨x, hx, hp⟩), rfl, rfl⟩
    | textStart =>
      obtain ⟨rfl, rfl⟩ := h
      refine ⟨c, ?_, hrest, rfl⟩
      rw [Atom.pattern, outcomes, if_pos (show c.pos = 0 from hpos)]
      exact List.mem_singleton_self c
    | textEnd =>
      obtain ⟨rfl, rfl⟩ := h
      refine ⟨c, ?_, hrest, rfl⟩
      rw [Atom.pattern, outcomes, if_pos (show c.rest = [] from hrest)]
      exact List.mem_singleton_self c

variable {p₁ p₂ : Regex Atom} {q₁ q₂ : Pattern}

theorem cat (h₁ : q₁.Follows p₁) (h₂ : q₂.Follows p₂) : (cat q₁ q₂).Follows (.cat p₁ p₂) := by
  constructor
  · intro b c d hpos hd
    obtain ⟨m, hm, hd⟩ := List.mem_flatMap.mp hd
    obtain ⟨u, hu, hupos, hmu⟩ := h₁.matches_of_mem hpos hm
    obtain ⟨v, hv, hvpos, hmv⟩ := h₂.matches_of_mem (b := b ++ u) (by simp [hupos, hpos]) hd
    refine ⟨u ++ v, by rw [hu, hv, List.append_assoc], ?_, u, v, rfl, hv ▸ hmu, hmv⟩
    rw [hvpos, hupos, List.length_append, Nat.add_assoc]
  · rintro b _ e c hpos hrest ⟨u, v, rfl, hu, hv⟩
    rw [List.append_assoc] at hrest
    obtain ⟨m, hm, hmrest, hmpos⟩ := h₁.exists_outcome hpos hrest hu
    obtain ⟨d, hd, hdrest, hdpos⟩ := h₂.exists_outcome (b := b ++ u) (by simp [hmpos, hpos]) hmrest hv
    refine ⟨d, List.mem_flatMap.mpr ⟨m, hm, hd⟩, hdrest, ?_⟩
    rw [hdpos, hmpos, List.length_append, Nat.add_assoc]

theorem alt (h₁ : q₁.Follows p₁) (h₂ : q₂.Follows p₂) : (alt q₁ q₂).Follows (.alt p₁ p₂) := by
  constructor
  · intro b c d hpos hd
    rcases List.mem_append.mp hd with hd | hd
    · obtain ⟨w, hw, hwpos, hm⟩ := h₁.matches_of_mem hpos hd
      exact ⟨w, hw, hwpos, .inl hm⟩
    · obtain ⟨w, hw, hwpos, hm⟩ := h₂.matches_of_mem hpos hd
      exact ⟨w, hw, hwpos, .inr hm⟩
  · rintro b w e c hpos hrest (hm | hm)
    · obtain ⟨d, hd, h⟩ := h₁.exists_outcome hpos hrest hm
      exact ⟨d, List.mem_append_left _ hd, h⟩
    · obtain ⟨d, hd, h⟩ := h₂.exists_outcome hpos hrest hm
      exact ⟨d, List.mem_append_right _ hd, h⟩

theorem group (h : q.Follows p) (captures : Bool) (i : Nat) :
    (group i q).Follows (.group captures p) := by
  constructor
  · intro b c d hpos hd
    obtain ⟨m, hm, rfl⟩ := List.mem_map.mp hd
    exact h.matches_of_mem (c := c.mark (.opened i)) (d := m) hpos hm
  · intro b w e c hpos hrest hm
    obtain ⟨d, hd, hdrest, hdpos⟩ := h.exists_outcome (c := c.mark (.opened i)) hpos hrest hm
    exact ⟨_, List.mem_map_of_mem hd, hdrest, hdpos⟩

/-! ### Repetitions -/

theorem times_of_mem (h : q.Follows p) (hpos : c.pos = b.length) (hd : d ∈ (star q).outcomes c) :
    ∃ w, c.rest = w ++ d.rest ∧ d.pos = c.pos + w.length ∧
      ∃ k, Regex.Times (p.Matches Atom.sense) k b w d.rest := by
  -- each round reads something
  induction hn : c.rest.length using Nat.strong_induction_on generalizing c b with
  | _ n ih =>
    rw [outcomes_star] at hd
    rcases List.mem_append.mp hd with hd | hd
    · obtain ⟨m, hm, hd⟩ := List.mem_flatMap.mp hd
      obtain ⟨hm, hlt⟩ := List.mem_filter.mp hm
      obtain ⟨u, hu, hupos, hmu⟩ := h.matches_of_mem hpos hm
      obtain ⟨v, hv, hvpos, k, hk⟩ := ih _ (hn ▸ of_decide_eq_true hlt) (b := b ++ u)
        (by simp [hupos, hpos]) hd rfl
      refine ⟨u ++ v, by rw [hu, hv, List.append_assoc], ?_, k + 1, u, v, rfl, hv ▸ hmu, hk⟩
      rw [hvpos, hupos, List.length_append, Nat.add_assoc]
    · obtain rfl := List.mem_singleton.mp hd
      exact ⟨[], rfl, rfl, 0, rfl⟩

theorem exists_outcome_times (h : q.Follows p) {k : Nat} (hpos : c.pos = b.length)
    (hrest : c.rest = w ++ e) (hk : Regex.Times (p.Matches Atom.sense) k b w e) :
    ∃ d ∈ (star q).outcomes c, d.rest = e ∧ d.pos = c.pos + w.length := by
  induction k generalizing b w c with
  | zero =>
    obtain rfl : w = [] := hk
    exact ⟨c, by rw [outcomes_star]; simp, hrest, rfl⟩
  | succ k ih =>
    obtain ⟨u, v, rfl, hu, hv⟩ := hk
    rw [List.append_assoc] at hrest
    by_cases hne : u = []
    · subst hne
      rw [List.append_nil] at hv
      exact ih hpos hrest hv
    · obtain ⟨m, hm, hmrest, hmpos⟩ := h.exists_outcome hpos hrest hu
      obtain ⟨d, hd, hdrest, hdpos⟩ := ih (b := b ++ u) (by simp [hmpos, hpos]) hmrest hv
      refine ⟨d, ?_, hdrest, by rw [hdpos, hmpos, List.length_append, Nat.add_assoc]⟩
      have := List.length_pos_iff.mpr hne
      rw [outcomes_star]
      refine List.mem_append_left _ (List.mem_flatMap.mpr ⟨m, List.mem_filter.mpr ⟨hm, ?_⟩, hd⟩)
      simp only [decide_eq_true_eq, hmrest, hrest, List.length_append]
      omega

theorem star (h : q.Follows p) : (star q).Follows (.rep 0 none p) := by
  constructor
  · intro b c d hpos hd
    obtain ⟨w, hw, hwpos, k, hk⟩ := h.times_of_mem hpos hd
    exact ⟨w, hw, hwpos, k, k.zero_le, nofun, hk⟩
  · rintro b w e c hpos hrest ⟨k, -, -, hk⟩
    exact h.exists_outcome_times hpos hrest hk

theorem plus (h : q.Follows p) : (plus q).Follows (.rep 1 none p) := by
  have hcat := h.cat h.star
  constructor
  · intro b c d hpos hd
    obtain ⟨w, hw, hwpos, u, v, hv, hmu, k, -, -, hk⟩ := hcat.matches_of_mem hpos hd
    exact ⟨w, hw, hwpos, k + 1, Nat.le_add_left 1 k, nofun, u, v, hv, hmu, hk⟩
  · rintro b w e c hpos hrest ⟨k, hone, -, hk⟩
    obtain ⟨k, rfl⟩ := Nat.exists_eq_add_of_le' hone
    obtain ⟨u, v, hv, hmu, hk⟩ := hk
    exact hcat.exists_outcome hpos hrest ⟨u, v, hv, hmu, k, k.zero_le, nofun, hk⟩

theorem opt (h : q.Follows p) : (opt q).Follows (.rep 0 (some 1) p) := by
  constructor
  · intro b c d hpos hd
    rcases List.mem_append.mp hd with hd | hd
    · obtain ⟨w, hw, hwpos, hm⟩ := h.matches_of_mem hpos hd
      refine ⟨w, hw, hwpos, 1, Nat.zero_le 1, fun m hm => Option.some.inj hm ▸ le_rfl, w, [], ?_, ?_⟩
      · rw [List.append_nil]
      · exact ⟨hm, rfl⟩
    · obtain rfl := List.mem_singleton.mp hd
      exact ⟨[], rfl, rfl, 0, le_rfl, fun m _ => m.zero_le, rfl⟩
  · rintro b w e c hpos hrest ⟨k, -, hone, hk⟩
    have hone : k ≤ 1 := hone 1 rfl
    cases Nat.le_one_iff_eq_zero_or_eq_one.mp hone with
    | inl hzero =>
      subst hzero
      obtain rfl : w = [] := hk
      exact ⟨c, List.mem_append_right _ (List.mem_singleton_self c), hrest, rfl⟩
    | inr hone =>
      subst hone
      obtain ⟨u, v, hw, hm, hv⟩ := hk
      obtain rfl : v = [] := hv
      rw [List.append_nil] at hw
      subst hw
      obtain ⟨d, hd, hdrest⟩ := h.exists_outcome hpos hrest hm
      exact ⟨d, List.mem_append_left _ hd, hdrest⟩

end Follows

theorem follows (h : ofRegex p n = some q) : q.Follows p := by
  induction p generalizing n q with
  | empty =>
    cases h
    constructor
    · intro b c d _ hd
      obtain rfl := List.mem_singleton.mp hd
      exact ⟨[], rfl, rfl, rfl⟩
    · rintro b _ e c _ hrest rfl
      exact ⟨c, List.mem_singleton_self c, hrest, rfl⟩
  | atom a => cases h; exact .atom a
  | cat p₁ p₂ ih₁ ih₂ =>
    obtain ⟨q₁, h₁, h⟩ := Option.bind_eq_some_iff.mp h
    obtain ⟨q₂, h₂, h⟩ := Option.bind_eq_some_iff.mp h
    cases h
    exact (ih₁ h₁).cat (ih₂ h₂)
  | alt p₁ p₂ ih₁ ih₂ =>
    obtain ⟨q₁, h₁, h⟩ := Option.bind_eq_some_iff.mp h
    obtain ⟨q₂, h₂, h⟩ := Option.bind_eq_some_iff.mp h
    cases h
    exact (ih₁ h₁).alt (ih₂ h₂)
  | rep least most p ih =>
    obtain ⟨q', h', h⟩ := ofRegex_rep h
    rcases h with ⟨rfl, rfl, rfl⟩ | ⟨rfl, rfl, rfl⟩ | ⟨rfl, rfl, rfl⟩
    exacts [(ih h').star, (ih h').plus, (ih h').opt]
  | group captures p ih =>
    cases captures with
    | true =>
      obtain ⟨q', h', rfl⟩ := Option.map_eq_some_iff.mp h
      exact (ih h').group true _
    | false =>
      obtain hq := ih h
      exact ⟨hq.matches_of_mem, hq.exists_outcome⟩

/-! ### Searching a text -/

theorem find_isSome_iff (q : Pattern) (c : Cursor) :
    (q.find (fun _ => true) c).isSome ↔ ∃ d, d ∈ q.outcomes c := by
  rw [find, run_eq_findSome?, List.findSome?_isSome_iff]
  simp

end Pattern

theorem Automaton.search_isSome_iff (a : Automaton) (rest : List Char) (pos : Nat) :
    (a.search rest pos).isSome ↔ ∃ u v, rest = u ++ v ∧
      (a.find (fun _ => true) ⟨v, pos + u.length, []⟩).isSome := by
  induction rest generalizing pos with
  | nil =>
    rw [search]
    constructor
    · exact fun h => ⟨[], [], rfl, h⟩
    · rintro ⟨u, v, huv, h⟩
      obtain ⟨rfl, rfl⟩ := List.append_eq_nil_iff.mp huv.symm
      exact h
  | cons x xs ih =>
    rw [search, isSome_orElse, Bool.or_eq_true, ih]
    constructor
    · rintro (h | ⟨u, v, rfl, h⟩)
      · exact ⟨[], x :: xs, rfl, h⟩
      · refine ⟨x :: u, v, rfl, ?_⟩
        rwa [List.length_cons, Nat.add_comm u.length, ← Nat.add_assoc]
    · rintro ⟨u, v, huv, h⟩
      cases u with
      | nil =>
        obtain rfl : x :: xs = v := huv
        exact .inl h
      | cons y u =>
        obtain ⟨rfl, rfl⟩ := List.cons.inj huv
        refine .inr ⟨u, v, rfl, ?_⟩
        rwa [List.length_cons, Nat.add_comm u.length, ← Nat.add_assoc] at h

namespace Pattern

/-! ### The contracts -/

theorem compile_eq_some {source : List Char} {program : Program}
    (h : engine.compile source = some program) : ∃ p, dialect.Parses source p ∧
      ofRegex p 0 = some program.pattern := by
  obtain ⟨q, hq, rfl⟩ := Option.map_eq_some_iff.mp h
  obtain ⟨p, hp, hq⟩ := Option.bind_eq_some_iff.mp hq
  exact ⟨p, (Dialect.parse_eq_some_iff dialect_standard).mp hp, hq⟩

/-- The engine of patterns counts the capture groups of its notation. -/
theorem engine_counts : engine.Counts dialect := fun _ _ h => by
  obtain ⟨p, hp, hq⟩ := compile_eq_some h
  exact ⟨p, hp, length_groups hq⟩

/-- The engine of patterns finds matches where expressions of its notation have them. -/
theorem engine_decides : engine.Decides dialect := fun _ program h => by
  obtain ⟨p, hp, hq⟩ := compile_eq_some h
  refine ⟨p, hp, fun text => ?_⟩
  have hf := follows hq
  show (program.automaton.search text 0).isSome ↔ _
  rw [Automaton.search_isSome_iff, program.automaton_eq, find_automaton _ fun _ _ _ _ => rfl]
  simp only [find_isSome_iff, Nat.zero_add]
  constructor
  · rintro ⟨u, v, rfl, d, hd⟩
    obtain ⟨w, hw, -, hm⟩ := hf.matches_of_mem (b := u) rfl hd
    exact ⟨u, w, d.rest, congrArg (u ++ ·) hw, hm⟩
  · rintro ⟨u, w, e, rfl, hm⟩
    obtain ⟨d, hd, -⟩ := hf.exists_outcome (c := ⟨w ++ e, u.length, []⟩) rfl rfl hm
    exact ⟨u, w ++ e, rfl, d, hd⟩

end Pattern

end Reckon
