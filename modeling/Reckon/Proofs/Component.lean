import Mathlib
import Reckon.Grammar.Component
import Reckon.Proofs.Decision

/-!
# Components match as their patterns do

The engine of patterns runs automata, and a component has three of them: one for its pattern, one for
its pattern behind `^` and one for it between `^` and `$`. Their answers are those of the pattern, so
all that is said of components over this engine may be said of `Pattern.run`.
-/

namespace Reckon

namespace Pattern

variable {q : Pattern}

/-! ### Anchored searches -/

/-- Behind the start of a text a pattern that begins there is not found. -/
theorem search_textStart_eq_none (q : Pattern) (rest : List Char) {pos : Nat} (hpos : pos ≠ 0) :
    (cat textStart q).automaton.search rest pos = none := by
  have hfind (v : List Char) {n : Nat} (hn : n ≠ 0) :
      (cat textStart q).automaton.find (fun _ => true) ⟨v, n, []⟩ = none := by
    rw [find_automaton _ fun _ _ _ _ => rfl, find, run, run]
    exact if_neg hn
  induction rest generalizing pos with
  | nil => exact hfind [] hpos
  | cons x xs ih => rw [Automaton.search, hfind _ hpos, ih pos.succ_ne_zero]; rfl

theorem search_textStart (q : Pattern) (text : List Char) :
    (cat textStart q).automaton.search text 0 = q.matchStart text := by
  have hfind : (cat textStart q).automaton.find (fun _ => true) (.ofText text) =
      q.matchStart text := by
    rw [find_automaton _ fun _ _ _ _ => rfl, find, run, run]
    exact if_pos rfl
  cases text with
  | nil => exact hfind
  | cons x xs =>
    rw [Automaton.search, search_textStart_eq_none q xs (Nat.succ_ne_zero 0), orElse_none]
    exact hfind

theorem matchStart_textEnd (q : Pattern) (text : List Char) :
    (cat q textEnd).matchStart text = q.matchAll text := by
  rw [matchStart, matchAll, find, find, run]
  congr 1
  funext c
  cases h : c.rest <;> simp [run, h]

end Pattern

/-! ### Components -/

namespace Component

open Pattern (dialect_standard)

variable (c : Component)

theorem exists_pattern : ∃ p, Pattern.dialect.Enclosed c.source p ∧
    Pattern.ofRegex p 0 = some c.pattern := by
  obtain ⟨p, hp, hpattern⟩ := Pattern.compile_eq_some c.anywhere_eq
  obtain ⟨q, hq, -⟩ := Pattern.compile_eq_some c.front_eq
  exact ⟨p, ⟨hp, q, hq⟩, hpattern⟩

theorem front_pattern : c.front.pattern = .cat .textStart c.pattern := by
  obtain ⟨p, hp, hpattern⟩ := c.exists_pattern
  obtain ⟨q, hq, hfront⟩ := Pattern.compile_eq_some c.front_eq
  obtain rfl := hq.unique dialect_standard
    (hp.parses_front dialect_standard (a := .textStart) fun _ => rfl)
  have : Pattern.ofRegex (.cat (.atom .textStart) (.group false p)) 0 =
      some (.cat .textStart c.pattern) := by
    simp [Pattern.ofRegex, Regex.captures, Pattern.Atom.pattern, hpattern]
  exact Option.some.inj (hfront.symm.trans this)

theorem whole_pattern : c.whole.pattern = .cat .textStart (.cat c.pattern .textEnd) := by
  obtain ⟨p, hp, hpattern⟩ := c.exists_pattern
  obtain ⟨q, hq, hwhole⟩ := Pattern.compile_eq_some c.whole_eq
  obtain rfl := hq.unique dialect_standard (hp.parses_whole dialect_standard (a := .textStart)
    (b := .textEnd) (fun _ => rfl) fun _ => rfl)
  have : Pattern.ofRegex (.cat (.atom .textStart) (.cat (.group false p) (.atom .textEnd))) 0 =
      some (.cat .textStart (.cat c.pattern .textEnd)) := by
    simp [Pattern.ofRegex, Regex.captures, Pattern.Atom.pattern, hpattern]
  exact Option.some.inj (hwhole.symm.trans this)

theorem matchStart_eq (text : List Char) : c.matchStart text = c.pattern.matchStart text := by
  show c.front.automaton.search text 0 = _
  rw [c.front.automaton_eq, c.front_pattern, Pattern.search_textStart]

theorem matchAll_eq (text : List Char) : c.matchAll text = c.pattern.matchAll text := by
  show c.whole.automaton.search text 0 = _
  rw [c.whole.automaton_eq, c.whole_pattern, Pattern.search_textStart, Pattern.matchStart_textEnd]

theorem tokens_eq (text : List Char) : c.tokens text = c.pattern.tokens text := by
  show c.anywhere.automaton.tokens text = _
  rw [c.anywhere.automaton_eq, Pattern.tokens_automaton]
  rfl

end Component

end Reckon
