import Mathlib
import Reckon.Proofs.Decision
import Reckon.Proofs.Numbering

/-!
# Languages of composed components

A part of a component stands between parentheses, and there its source is read as it is read alone
(`Enclosed.reads`). So a composed source is read as the expressions of its parts, joined by what stands
between them in the template, and the language of the whole is made of those of the parts: `%s|%s`
gives their union, `%s%s` their product and `(%s)` the same language.

In the product a part is matched inside of a text, where an anchor would see what it does not see when
the part is matched alone. An expression without them matches the same texts anywhere
(`Regex.Free.matches_iff`).
-/

namespace Reckon

/-! ### Expressions -/

namespace Regex

variable {α : Type} {sense : α → Sense} {p q : Regex α} {t : List Char}

theorem times_congr {matched : (before w after : List Char) → Prop}
    (h : ∀ b w a b' a', matched b w a → matched b' w a') (k : Nat) {b w a : List Char}
    (hw : Times matched k b w a) (b' a' : List Char) : Times matched k b' w a' := by
  induction k generalizing b w b' with
  | zero => exact hw
  | succ k ih =>
    obtain ⟨u, v, rfl, hu, hv⟩ := hw
    exact ⟨u, v, rfl, h _ _ _ _ _ hu, ih hv _⟩

/-- What does not look around matches the same texts anywhere. -/
theorem Free.moved (h : p.Free sense) {b w a : List Char} (hw : p.Matches sense b w a)
    (b' a' : List Char) : p.Matches sense b' w a' := by
  induction p generalizing b w a b' a' with
  | empty => exact hw
  | atom x =>
    obtain ⟨s, hs⟩ := h
    rw [Matches, hs] at hw ⊢
    exact hw
  | cat p q hp hq =>
    obtain ⟨u, v, rfl, hu, hv⟩ := hw
    exact ⟨u, v, rfl, hp h.1 hu _ _, hq h.2 hv _ _⟩
  | alt p q hp hq => exact hw.imp (hp h.1 · _ _) (hq h.2 · _ _)
  | rep least most p hp =>
    have round : ∀ b w a b' a', p.Matches sense b w a → p.Matches sense b' w a' :=
      fun _ _ _ b' a' hu => hp h hu b' a'
    obtain ⟨k, hleast, hmost, hk⟩ := hw
    exact ⟨k, hleast, hmost, times_congr round k hk b' a'⟩
  | group _ p hp => exact hp h hw _ _

theorem Free.matches_iff (h : p.Free sense) {b w a : List Char} :
    p.Matches sense b w a ↔ p.Matches sense [] w [] :=
  ⟨fun hw => h.moved hw _ _, fun hw => h.moved hw _ _⟩

/-- Between anchors an expression is found in a text exactly if it matches all of it. -/
theorem finds_anchored {a b : α} {captures : Bool}
    (ha : sense a = .looks fun before _ => before = [])
    (hb : sense b = .looks fun _ after => after = []) :
    (cat (atom a) (cat (group captures p) (atom b))).Finds sense t ↔ p.Matches sense [] t [] := by
  simp only [Finds, Matches, ha, hb, Sense.Holds]
  constructor
  · rintro ⟨before, w, after, rfl, _, v, rfl, ⟨rfl, rfl⟩, u, _, rfl, hu, rfl, rfl⟩
    simpa using hu
  · intro h
    exact ⟨[], t, [], by simp, [], t, rfl, ⟨rfl, rfl⟩, t, [], by simp, by simpa using h, rfl, rfl⟩

end Regex

/-! ### Languages of components -/

namespace Component

variable {E : Engine} {D : Dialect} {a b c : Component E} {description : String}

/-- The texts that a component matches as a whole. -/
def language (c : Component E) : Language Char := {t | c.accepts t}

/-- The source of a component has no anchor and nothing else that looks around. -/
def Unanchored (D : Dialect) (c : Component E) : Prop :=
  ∃ p, D.Parses c.source p ∧ p.Free D.sense

/-- The source of a component can be enclosed, and the component matches a text exactly if what its
source is read as matches all of it. -/
theorem exists_enclosed (hD : D.Standard) (hE : E.Decides D) (c : Component E) :
    ∃ p, D.Enclosed c.source p ∧ ∀ t, t ∈ c.language ↔ p.Matches D.sense [] t [] := by
  obtain ⟨p, hp, -⟩ := hE _ _ c.anywhere_eq
  obtain ⟨q, hq, -⟩ := hE _ _ c.front_eq
  obtain ⟨r, hr, hmatch⟩ := hE _ _ c.whole_eq
  have h : D.Enclosed c.source p := ⟨hp, q, hq⟩
  obtain ⟨x, hx, hstart⟩ := hD.textStart
  obtain ⟨y, hy, hend⟩ := hD.textEnd
  refine ⟨p, h, fun t => (hmatch t).trans ?_⟩
  rw [hr.unique hD (h.parses_whole hD hstart hend)]
  exact Regex.finds_anchored hx hy

theorem source_of_adjacent (h : compose description "%s%s" [] [a, b] = .ok c) :
    c.source = Dialect.enclose a.source ++ Dialect.enclose b.source := by
  obtain ⟨-, -, m, hm, hc, -⟩ := compose_eq_ok h
  obtain rfl := Option.some.inj hm
  rw [hc]
  simp [Assembly.splice, Assembly.add, Assembly.start]

theorem source_of_alternatives (h : compose description "%s|%s" [] [a, b] = .ok c) :
    c.source = Dialect.enclose a.source ++ '|' :: Dialect.enclose b.source := by
  obtain ⟨-, -, m, hm, hc, -⟩ := compose_eq_ok h
  have htext : "%s|%s".toList = ['%', 's', '|', '%', 's'] := rfl
  rw [htext] at hm
  obtain rfl := Option.some.inj hm
  rw [hc]
  simp [Assembly.splice, Assembly.add, Assembly.write, Assembly.start]

theorem source_of_named {name : PartName} (h : compose description "(%s)" [name] [a] = .ok c) :
    c.source = '(' :: (Dialect.enclose a.source ++ [')']) := by
  obtain ⟨-, -, m, hm, hc, -⟩ := compose_eq_ok h
  obtain rfl := Option.some.inj hm
  rw [hc]
  simp [Assembly.splice, Assembly.openGroup, Assembly.add, Assembly.write, Assembly.start]

section
open Dialect (State)

variable {p q : Regex D.Atom}

theorem parses_adjacent (hD : D.Standard) (ha : D.Enclosed a.source p) (hb : D.Enclosed b.source q)
    (h : compose description "%s%s" [] [a, b] = .ok c) :
    D.Parses c.source (.cat (.group false p) (.group false q)) := by
  have hbehind := hb.reads hD (s := (State.start D).push (.group false p)) rfl []
  rw [List.append_nil] at hbehind
  rw [source_of_adjacent h]
  exact ⟨_, (ha.reads hD (s := State.start D) rfl _).trans hbehind, rfl, rfl⟩

theorem parses_alternatives (hD : D.Standard) (ha : D.Enclosed a.source p)
    (hb : D.Enclosed b.source q) (h : compose description "%s|%s" [] [a, b] = .ok c) :
    D.Parses c.source (.alt (.group false p) (.group false q)) := by
  let bar : State D := { (State.start D).push (.group false p) with
    top := ((State.start D).push (.group false p)).top.split }
  have hbehind := hb.reads hD (s := bar) rfl []
  rw [List.append_nil] at hbehind
  rw [source_of_alternatives h]
  exact ⟨_, (ha.reads hD (s := State.start D) rfl _).trans
    (.step (p := .bar) (hD.bar _) rfl hbehind), rfl, rfl⟩

theorem parses_named (hD : D.Standard) (ha : D.Enclosed a.source p) {name : PartName}
    (h : compose description "(%s)" [name] [a] = .ok c) :
    D.Parses c.source (.group true (.group false p)) := by
  let opened : State D := (State.start D).openGroup true D.initial
  obtain ⟨g, hclose⟩ := hD.closing D.initial []
  have hopen : D.next D.initial ('(' :: (Dialect.enclose a.source ++ [')'])) =
      some (.opening true, D.initial, Dialect.enclose a.source ++ [')']) :=
    hD.capture (by simp [Dialect.enclose])
  rw [source_of_named h]
  exact ⟨_, .step hopen rfl ((ha.reads hD (s := opened) rfl [')']).trans
    (.single (p := .closing) hclose rfl)), rfl, rfl⟩

end

/-- The language of a component is what its source matches as a whole, and composing composes
languages, for all sources that the engine compiles: beside each other parts give the product, unless
an anchor looks at the text around, as alternatives the union, and under a name the same language. -/
theorem language_compose (hD : D.Standard) (hE : E.Decides D) (a b : Component E) :
    (∀ c : Component E, ∃ p, (∀ q, D.Parses c.source q ↔ q = p) ∧
      ∀ t, t ∈ c.language ↔ p.Matches D.sense [] t []) ∧
    (a.Unanchored D → b.Unanchored D → ∀ description c,
      compose description "%s%s" [] [a, b] = .ok c → c.language = a.language * b.language) ∧
    (∀ description c,
      compose description "%s|%s" [] [a, b] = .ok c → c.language = a.language + b.language) ∧
    (∀ description name c,
      compose description "(%s)" [name] [a] = .ok c → c.language = a.language) := by
  obtain ⟨p, hp, ha⟩ := exists_enclosed hD hE a
  obtain ⟨q, hq, hb⟩ := exists_enclosed hD hE b
  -- a composed component is read as one expression only
  have known {c : Component E} {r : Regex D.Atom} (hr : D.Parses c.source r) (t : List Char) :
      t ∈ c.language ↔ r.Matches D.sense [] t [] := by
    obtain ⟨x, hx, hc⟩ := exists_enclosed hD hE c
    rw [hc, hx.parses.unique hD hr]
  refine ⟨fun c => ?_, fun ⟨p', hp', hfp⟩ ⟨q', hq', hfq⟩ _ c h => ?_, fun _ c h => ?_,
    fun _ _ c h => ?_⟩
  · obtain ⟨x, hx, hc⟩ := exists_enclosed hD hE c
    exact ⟨x, fun y => ⟨fun hy => hy.unique hD hx.parses, fun hy => hy ▸ hx.parses⟩, hc⟩
  · obtain rfl := hp'.unique hD hp.parses
    obtain rfl := hq'.unique hD hq.parses
    ext t
    rw [known (parses_adjacent hD hp hq h), Language.mem_mul]
    simp only [Regex.Matches, hfp.matches_iff, hfq.matches_iff, ha, hb]
    constructor
    · rintro ⟨u, v, rfl, hu, hv⟩
      exact ⟨u, hu, v, hv, rfl⟩
    · rintro ⟨u, hu, v, hv, rfl⟩
      exact ⟨u, v, rfl, hu, hv⟩
  · ext t
    rw [known (parses_alternatives hD hp hq h), Language.mem_add, ha, hb, Regex.Matches]
    rfl
  · ext t
    rw [known (parses_named hD hp h), ha]
    rfl

/-- A part with an alternative at its end, repeated in another one with a group. -/
def steps : Except GrammarFault (Component × Component × Component × Component × Component) := do
  let step ← leaf "step" "x|xy"
  let walk ← compose "walk" "(%s)+" [.operand] [step]
  let both ← compose "both" "%s%s" [] [walk, step]
  let either ← compose "either" "%s|%s" [] [walk, step]
  let named ← compose "named" "(%s)" [.number] [walk]
  return (step, walk, both, either, named)

theorem steps_language : Pattern.dialect.Standard ∧ Pattern.engine.Decides Pattern.dialect ∧
    ∃ step walk both either named, steps = .ok (step, walk, both, either, named) ∧
      walk.Unanchored Pattern.dialect ∧ step.Unanchored Pattern.dialect ∧
        both.language = walk.language * step.language ∧
        either.language = walk.language + step.language ∧ named.language = walk.language := by
  have hsources : steps.map (fun s => (s.1.source, s.2.1.source)) =
      .ok ("x|xy".toList, "((?:x|xy))+".toList) := by decide +kernel
  obtain ⟨⟨step, walk, both, either, named⟩, hs, hsources⟩ := map_eq_ok hsources
  obtain ⟨hstep, hwalk⟩ := Prod.mk.inj hsources
  obtain ⟨_, h₁, h⟩ := bind_eq_ok hs
  obtain ⟨_, h₂, h⟩ := bind_eq_ok h
  obtain ⟨_, h₃, h⟩ := bind_eq_ok h
  obtain ⟨_, h₄, h⟩ := bind_eq_ok h
  obtain ⟨_, h₅, h⟩ := bind_eq_ok h
  cases h
  let x : Regex Pattern.Atom := .atom (.set (.single 'x'))
  let xy : Regex Pattern.Atom := .cat x (.atom (.set (.single 'y')))
  have hparse : Pattern.dialect.parse step.source = some (.alt x xy) ∧
      Pattern.dialect.parse walk.source =
        some (.rep 1 none (.group true (.group false (.alt x xy)))) := by
    rw [show step.source = _ from hstep, show walk.source = _ from hwalk]
    decide +kernel
  have hfree : (Regex.alt x xy).Free Pattern.Atom.sense := ⟨⟨_, rfl⟩, ⟨_, rfl⟩, ⟨_, rfl⟩⟩
  have reads {t : List Char} {p : Regex Pattern.Atom} (h : Pattern.dialect.parse t = some p) :
      Pattern.dialect.Parses t p := (Dialect.parse_eq_some_iff Pattern.dialect_standard).mp h
  have hwalk' : walk.Unanchored Pattern.dialect := ⟨_, reads hparse.2, hfree⟩
  have hstep' : step.Unanchored Pattern.dialect := ⟨_, reads hparse.1, hfree⟩
  obtain ⟨-, hboth, heither, hnamed⟩ :=
    language_compose Pattern.dialect_standard Pattern.engine_decides walk step
  exact ⟨Pattern.dialect_standard, Pattern.engine_decides, step, walk, both, either, named, hs,
    hwalk', hstep', hboth hwalk' hstep' _ _ h₃, heither _ _ h₄, hnamed _ _ _ h₅⟩

end Component

end Reckon
