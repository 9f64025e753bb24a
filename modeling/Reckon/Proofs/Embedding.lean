import Mathlib
import Reckon.Regex.Dialect

/-!
# A source inside of another one

What is done with a source does not depend on what is open around it: reading on its own becomes
reading inside of another source, with the levels around it below (`State.take_within`). What can go
wrong is the end. A comment at the end of a source takes in the parenthesis behind it, and then the
source cannot be enclosed at all. If it can, no piece of it sees past that parenthesis
(`State.Reads.embed`), so between `(?:` and `)` it is read as a group of what it is read as alone,
whatever stands before and behind (`Dialect.Enclosed.reads`).
-/

namespace Reckon.Dialect

variable {D : Dialect}

theorem Standard.next_nil (hD : D.Standard) (f : D.Flags) : D.next f [] = none := by
  by_contra hne
  obtain ⟨⟨p, g, r⟩, h⟩ := Option.ne_none_iff_exists'.mp hne
  obtain ⟨u, hu, ht⟩ := hD.advances h
  exact hu (List.append_eq_nil_iff.mp ht.symm).1

theorem Level.repeatLast_eq_some {l l' : Level D} {least : Nat} {most : Option Nat}
    (h : l.repeatLast least most = some l') :
    ∃ q qs, l.items = q :: qs ∧ l' = { l with items := .rep least most q :: qs } := by
  rw [Level.repeatLast] at h
  split at h
  · cases h
  · cases h
  · next q qs _ hq => exact ⟨q, qs, hq, (Option.some.inj h).symm⟩

namespace State

variable {s s' e m z : State D} {t u v : List Char} {f : D.Flags} {p : Piece D.Atom}

/-! ### Reading has one result -/

theorem Reads.trans (h : s.Reads t m u) (h' : m.Reads u e v) : s.Reads t e v := by
  induction h with
  | done => exact h'
  | step hnext htake _ ih => exact .step hnext htake (ih h')

theorem Reads.single (hnext : D.next s.flags t = some (p, f, u)) (htake : s.take f p = some s') :
    s.Reads t s' u := .step hnext htake .done

theorem Reads.of_nil (hD : D.Standard) (h : s.Reads [] e v) : e = s ∧ v = [] := by
  cases h with
  | done => exact ⟨rfl, rfl⟩
  | step hnext => rw [hD.next_nil] at hnext; cases hnext

/-- Reading to the end passes all that can be reached. -/
theorem Reads.rest (hD : D.Standard) (h : s.Reads t m u) (he : s.Reads t e []) : m.Reads u e [] := by
  induction h with
  | done => exact he
  | step hnext htake _ ih =>
    cases he with
    | done => rw [hD.next_nil] at hnext; cases hnext
    | step hnext' htake' he =>
      rw [hnext] at hnext'
      cases hnext'
      rw [htake] at htake'
      cases htake'
      exact ih he

/-! ### The outermost level -/

/-- The levels without what is in them. -/
def outline (s : State D) : List (Bool × D.Flags) :=
  (s.top :: s.below).map fun l => (l.captures, l.flags)

theorem closeGroup_eq_some (h : s.closeGroup = some s') : ∃ l ls, s.below = l :: ls ∧
    s' = ⟨s.top.flags, l.push (.group s.top.captures s.top.body), ls⟩ := by
  rw [closeGroup] at h
  split at h
  · cases h
  · next l ls hl => exact ⟨l, ls, hl, (Option.some.inj h).symm⟩

theorem outline_take (h : s.take f p = some s') : s'.outline.getLast? = s.outline.getLast? := by
  cases p with
  | atom a | bar | setting | space => cases h; rfl
  | opening captures => cases h; exact List.getLast?_cons_cons
  | closing =>
    obtain ⟨l, ls, hl, rfl⟩ := closeGroup_eq_some h
    rw [outline, outline, hl]
    exact List.getLast?_cons_cons.symm
  | mark least most =>
    obtain ⟨l, hl, rfl⟩ := Option.map_eq_some_iff.mp h
    obtain ⟨q, qs, -, rfl⟩ := Level.repeatLast_eq_some hl
    rfl

theorem Reads.outline (h : s.Reads t e v) : e.outline.getLast? = s.outline.getLast? := by
  induction h with
  | done => rfl
  | step _ htake _ ih => rw [ih, outline_take htake]

/-! ### Levels around -/

/-- The same state with more levels around it. -/
def within (s : State D) (outer : List (Level D)) : State D := { s with below := s.below ++ outer }

theorem take_within (outer : List (Level D)) (h : s.take f p = some s') :
    (s.within outer).take f p = some (s'.within outer) := by
  cases p with
  | atom a | bar | setting | space | opening captures => cases h; rfl
  | closing =>
    obtain ⟨l, ls, hl, rfl⟩ := closeGroup_eq_some h
    rw [take, closeGroup, within, hl]
    rfl
  | mark least most =>
    obtain ⟨l, hl, rfl⟩ := Option.map_eq_some_iff.mp h
    show (s.top.repeatLast least most).map _ = _
    rw [hl]
    rfl

/-- What is read alone is read before a parenthesis, if it is known that the text with the parenthesis
behind can be read to its end inside of something. -/
theorem Reads.embed (hD : D.Standard) {inner : List (Level D)} (hinner : inner ≠ [])
    (h : s.Reads t e []) (hz : (s.within inner).Reads (t ++ [')']) z []) (hbelow : z.below = [])
    (outer : List (Level D)) (u : List Char) :
    (s.within outer).Reads (t ++ ')' :: u) (e.within outer) (')' :: u) := by
  generalize hv : ([] : List Char) = v at h
  induction h with
  | done => subst hv; exact .done
  | @step s s' e t t' v p f hnext htake h ih =>
    have hbehind : ∀ r, D.next s.flags (t ++ [')']) = some (p, f, r) →
        (s'.within inner).Reads r z [] := fun r hr =>
      Reads.rest hD (.single (s := s.within inner) hr (take_within inner htake)) hz
    rcases hD.beforeClosing hnext with hr | hr
    · exact .step (hD.behindClosing hr u) (take_within outer htake) (ih (hbehind _ hr) hv)
    · -- the parenthesis is missing, so the levels around stay open
      obtain ⟨rfl, -⟩ := Reads.of_nil hD (hbehind [] hr)
      exact absurd (List.append_eq_nil_iff.mp hbelow).2 hinner

end State

/-! ### Reading by a function -/

namespace State

variable {s e : State D} {t : List Char}

theorem reads_of_read {fuel : Nat} (h : s.read fuel t = some e) : s.Reads t e [] := by
  induction fuel generalizing s t with
  | zero =>
    cases t with
    | nil => obtain rfl := Option.some.inj h; exact .done
    | cons => cases h
  | succ fuel ih =>
    cases t with
    | nil => obtain rfl := Option.some.inj h; exact .done
    | cons c cs =>
      rw [read] at h
      split at h
      · cases h
      · next p f u hnext =>
        obtain ⟨s', htake, h⟩ := Option.bind_eq_some_iff.mp h
        exact .step hnext htake (ih h)

theorem read_of_reads (hD : D.Standard) (h : s.Reads t e []) {fuel : Nat} (hfuel : t.length ≤ fuel) :
    s.read fuel t = some e := by
  generalize hv : ([] : List Char) = v at h
  induction h generalizing fuel with
  | done => subst hv; cases fuel <;> rfl
  | @step s s' e t u v p f hnext htake _ ih =>
    obtain ⟨w, hw, rfl⟩ := hD.advances hnext
    have hlength := List.length_pos_iff.mpr hw
    rw [List.length_append] at hfuel
    obtain ⟨fuel, rfl⟩ : ∃ n, fuel = n + 1 := Nat.exists_eq_add_one.mpr (by omega)
    obtain ⟨c, cs, hc⟩ := List.exists_cons_of_ne_nil (List.append_ne_nil_of_left_ne_nil hw u)
    rw [hc] at hnext ⊢
    rw [read, hnext]
    simp only [htake, Option.bind_some]
    exact ih (by omega) hv

end State

/-- The function reads what can be read. -/
theorem parse_eq_some_iff (hD : D.Standard) {source : List Char} {p : Regex D.Atom} :
    D.parse source = some p ↔ D.Parses source p := by
  rw [parse, Option.bind_eq_some_iff]
  refine exists_congr fun s => ⟨?_, ?_⟩
  · rintro ⟨hs, h⟩
    split at h
    · next hbelow =>
      exact ⟨State.reads_of_read hs, List.isEmpty_iff.mp hbelow, (Option.some.inj h).symm⟩
    · cases h
  · rintro ⟨hs, hbelow, rfl⟩
    exact ⟨State.read_of_reads hD hs le_rfl, by rw [hbelow]; rfl⟩

/-! ### Parentheses around a source -/

theorem Parses.unique (hD : D.Standard) {source : List Char} {p q : Regex D.Atom}
    (hp : D.Parses source p) (hq : D.Parses source q) : p = q := by
  obtain ⟨s, hs, -, rfl⟩ := hp
  obtain ⟨e, he, -, rfl⟩ := hq
  obtain ⟨rfl, -⟩ := (State.Reads.rest hD hs he).of_nil hD
  rfl

/-- `source` is read as `p` and can stand between parentheses. -/
structure Enclosed (D : Dialect) (source : List Char) (p : Regex D.Atom) : Prop where
  parses : D.Parses source p
  front : ∃ q, D.Parses ('^' :: enclose source) q

namespace Enclosed

variable {source : List Char} {p : Regex D.Atom}

/-- Between parentheses a source is read as a group of what it is read as alone. -/
theorem reads (h : D.Enclosed source p) (hD : D.Standard) {s : State D} (hs : s.flags = D.initial)
    (u : List Char) : s.Reads (enclose source ++ u) (s.push (.group false p)) u := by
  obtain ⟨e, he, hbelow, rfl⟩ := h.parses
  obtain ⟨q, z, hz, hzbelow, -⟩ := h.front
  obtain ⟨a, -, hstart⟩ := hD.textStart
  have hopen (s : State D) (hs : s.flags = D.initial) (u : List Char) :
      s.Reads (enclose source ++ u) ((State.start D).within (s.top :: s.below))
        (source ++ ')' :: u) := by
    have hnext := hD.plain s.flags (source ++ ')' :: u)
    refine .single (p := .opening false) (f := s.flags) ?_ ?_
    · rw [← hnext, enclose]
      simp
    · rw [State.take, State.openGroup, hs]
      rfl
  -- the state between `^` and the parenthesis
  have hfront : (State.start D).Reads ('^' :: enclose source)
      ((State.start D).push (.atom a)) (enclose source) :=
    .single (hstart (enclose source)) rfl
  have hz' := (hopen ((State.start D).push (.atom a)) rfl []).rest hD
    (by rw [List.append_nil]; exact hfront.rest hD hz)
  refine (hopen s hs u).trans ((he.embed hD (List.cons_ne_nil _ _) hz' hzbelow
    (s.top :: s.below) u).trans ?_)
  obtain ⟨g, hnext⟩ := hD.closing e.flags u
  refine .single (s := e.within (s.top :: s.below)) hnext ?_
  have hkey : (e.top.captures, e.top.flags) = (false, D.initial) := by
    have := he.outline
    rw [State.outline, hbelow] at this
    exact Option.some.inj this
  obtain ⟨hcaptures, hflags⟩ := Prod.mk.inj hkey
  rw [State.take, State.closeGroup, State.within, hbelow, List.nil_append]
  show some (State.mk e.top.flags (s.top.push (.group e.top.captures e.top.body)) s.below) = _
  rw [hcaptures, hflags, ← hs]
  rfl

/-- `^` before an enclosed source. -/
theorem parses_front (h : D.Enclosed source p) (hD : D.Standard) {a : D.Atom}
    (ha : ∀ t, D.next D.initial ('^' :: t) = some (.atom a, D.initial, t)) :
    D.Parses ('^' :: enclose source) (.cat (.atom a) (.group false p)) := by
  refine ⟨((State.start D).push (.atom a)).push (.group false p), .step (ha _) rfl ?_, rfl, rfl⟩
  have hr := h.reads hD (s := (State.start D).push (.atom a)) rfl []
  rwa [List.append_nil] at hr

/-- `^` before an enclosed source and `$` behind it. -/
theorem parses_whole (h : D.Enclosed source p) (hD : D.Standard) {a b : D.Atom}
    (ha : ∀ t, D.next D.initial ('^' :: t) = some (.atom a, D.initial, t))
    (hb : ∀ t, D.next D.initial ('$' :: t) = some (.atom b, D.initial, t)) :
    D.Parses ('^' :: (enclose source ++ ['$'])) (.cat (.atom a) (.cat (.group false p) (.atom b))) := by
  have hr := h.reads hD (s := (State.start D).push (.atom a)) rfl ['$']
  exact ⟨(((State.start D).push (.atom a)).push (.group false p)).push (.atom b),
    .step (ha _) rfl (hr.trans (.single (hb []) rfl)), rfl, rfl⟩

end Enclosed

end Reckon.Dialect
