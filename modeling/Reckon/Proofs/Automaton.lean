import Mathlib
import Reckon.Pattern.Automaton
import Reckon.Proofs.Matching

/-!
# The automaton of a pattern finds the preferred match

`find_automaton`: for every condition on the end of a match that does not ask for its marks, the
automaton of a pattern answers what the pattern answers.

What is to come is a function `e` of a state and a cursor. `enter` runs a pattern up to its first
sets and leaves the rest to `e`; that is what its ways do (`enter_eq_outlook`). If `e` goes on
behind each set as the pattern does (`Continues`), nothing is lost (`run_eq_enter`), and then the
rows of the automaton hold the ways behind each set (`behind_eq_rows`). Threads in one state succeed
or fail together, so `sift` drops only what cannot matter (`outcome_sift`).
-/

namespace Reckon

variable {α : Type} {e : Option Nat → Cursor → Option α}

/-! ### Ways -/

namespace Way

/-- What the first good way leads to. -/
def outlook (e : Option Nat → Cursor → Option α) (ws : List Way) (c : Cursor) : Option α :=
  ws.findSome? fun w => if w.isOpen c then e w.target (w.follow c) else none

/-- A way leaves marks and goes no further in the text. -/
theorem follow_eq (w : Way) (c : Cursor) : ∃ ms, w.follow c = ⟨c.rest, c.pos, ms⟩ := by
  rw [follow]
  induction w.marks generalizing c with
  | nil => exact ⟨c.marks, rfl⟩
  | cons m ms ih => exact ih (c.mark m)

theorem follow_rest (w : Way) (c : Cursor) : (w.follow c).rest = c.rest := by
  obtain ⟨ms, h⟩ := follow_eq w c
  rw [h]

theorem follow_pos (w : Way) (c : Cursor) : (w.follow c).pos = c.pos := by
  obtain ⟨ms, h⟩ := follow_eq w c
  rw [h]

theorem outlook_nil : outlook e [] = fun _ => none := rfl

theorem outlook_cons (w : Way) (ws : List Way) (c : Cursor) :
    outlook e (w :: ws) c =
      ((if w.isOpen c then e w.target (w.follow c) else none) <|> outlook e ws c) := by
  unfold outlook
  rw [List.findSome?_cons]
  split <;> simp_all

theorem outlook_append (ws vs : List Way) (c : Cursor) :
    outlook e (ws ++ vs) c = (outlook e ws c <|> outlook e vs c) := by
  unfold outlook
  rw [List.findSome?_append]
  simp

theorem outlook_direct (t : Option Nat) : outlook e [direct t] = e t := by
  funext c
  simp [outlook, direct, isOpen, follow]

/-- A way that is covered by a failing one fails. -/
theorem eq_none_of_covers (he : ∀ t, Blind (e t)) {w v : Way} {c : Cursor} (h : w.covers v)
    (hw : w.isOpen c → e w.target (w.follow c) = none) (hv : v.isOpen c) :
    e v.target (v.follow c) = none := by
  simp only [covers, Bool.and_eq_true, beq_iff_eq] at h
  obtain ⟨⟨ht, hstart⟩, hend⟩ := h
  have open_of : w.isOpen c := by
    unfold isOpen at hv ⊢
    revert hstart hend hv
    cases w.atStart <;> cases w.atEnd <;> cases v.atStart <;> cases v.atEnd <;> simp_all
  rw [← ht]
  refine (he w.target).eq_none ?_ ?_ (hw open_of)
  · rw [follow_rest, follow_rest]
  · rw [follow_pos, follow_pos]

theorem outlook_merge (he : ∀ t, Blind (e t)) (ws vs : List Way) (c : Cursor) :
    outlook e (merge ws vs) c = (outlook e ws c <|> outlook e vs c) := by
  rw [merge, outlook_append]
  cases hw : outlook e ws c with
  | some a => simp
  | none =>
    simp only [none_orElse]
    have fails : ∀ w ∈ ws, w.isOpen c → e w.target (w.follow c) = none := by
      intro w hm ho
      have := List.findSome?_eq_none_iff.mp hw w hm
      simpa [ho] using this
    clear hw
    induction vs with
    | nil => rfl
    | cons v vs ih =>
      rw [List.filter_cons, outlook_cons]
      split
      · rw [outlook_cons, ih]
      · next h =>
        simp only [Bool.not_eq_true', Bool.not_eq_false, List.any_eq_true] at h
        obtain ⟨w, hm, hc⟩ := h
        rw [ih]
        split
        · next hv => rw [eq_none_of_covers he hc (fails w hm) hv, none_orElse]
        · rfl

theorem outlook_behind (m : Mark) (ws : List Way) :
    outlook e (ws.map (behind m)) = fun c => outlook e ws (c.mark m) := by
  funext c
  unfold outlook
  rw [List.findSome?_map]
  rfl

theorem outlook_onlyAtStart (ws : List Way) (c : Cursor) :
    outlook e (ws.map onlyAtStart) c = if c.pos = 0 then outlook e ws c else none := by
  induction ws with
  | nil => simp [outlook]
  | cons w ws ih =>
    rw [List.map_cons, outlook_cons, outlook_cons, ih]
    by_cases h : c.pos = 0 <;> simp [onlyAtStart, isOpen, follow, h]

theorem outlook_onlyAtEnd (ws : List Way) (c : Cursor) :
    outlook e (ws.map onlyAtEnd) c = if c.rest = [] then outlook e ws c else none := by
  induction ws with
  | nil => simp [outlook]
  | cons w ws ih =>
    rw [List.map_cons, outlook_cons, outlook_cons, ih]
    by_cases h : c.rest = [] <;> simp [onlyAtEnd, isOpen, follow, h]

end Way

namespace Pattern

open Way

/-! ### Up to the first sets -/

/-- Runs a pattern whose sets are numbered from `n` without reading: a set is left to `e`. -/
def enter (e : Option Nat → Cursor → Option α) :
    Pattern → (n : Nat) → (Cursor → Option α) → Cursor → Option α
  | empty, _, k, c => k c
  | set _, n, _, c => e (some n) c
  | textStart, _, k, c => if c.pos = 0 then k c else none
  | textEnd, _, k, c => if c.rest = [] then k c else none
  | cat p q, n, k, c => enter e p n (enter e q (n + p.size) k) c
  | alt p q, n, k, c => enter e p n k c <|> enter e q (n + p.size) k c
  | star p, n, k, c => enter e p n (fun _ => none) c <|> k c
  | plus p, n, k, c => enter e p n (fun d => enter e p n (fun _ => none) d <|> k d) c
  | opt p, n, k, c => enter e p n k c <|> k c
  | group i p, n, k, c => enter e p n (fun d => k (d.mark (.closed i))) (c.mark (.opened i))

theorem enter_eq_outlook (he : ∀ t, Blind (e t)) (p : Pattern) (n : Nat) (ws : List Way) :
    enter e p n (outlook e ws) = outlook e (p.ways n ws) := by
  induction p generalizing n ws with
  | empty => rfl
  | set s => funext c; rw [ways, outlook_direct]; rfl
  | textStart => funext c; exact (outlook_onlyAtStart ws c).symm
  | textEnd => funext c; exact (outlook_onlyAtEnd ws c).symm
  | cat p q hp hq =>
    show enter e p n (enter e q (n + p.size) (outlook e ws)) = _
    rw [hq, hp]
    rfl
  | alt p q hp hq => funext c; rw [enter, ways, outlook_merge he, hp, hq]
  | star p hp => funext c; rw [enter, ways, outlook_merge he, ← outlook_nil, hp]
  | plus p hp =>
    have h : (fun d => enter e p n (fun _ => none) d <|> outlook e ws d) =
        outlook e (merge (p.ways n []) ws) := by
      funext d
      rw [outlook_merge he, ← outlook_nil, hp]
    show enter e p n (fun d => enter e p n (fun _ => none) d <|> outlook e ws d) = _
    rw [h, hp]
    rfl
  | opt p hp => funext c; rw [enter, ways, outlook_merge he, hp]
  | group i p hp =>
    funext c
    rw [enter, ← outlook_behind, hp, ways, outlook_behind]

/-- Nothing is read, so the continuation is asked only right here. -/
theorem enter_congr (p : Pattern) (n : Nat) {k l : Cursor → Option α} {c : Cursor}
    (h : ∀ d : Cursor, d.rest = c.rest → k d = l d) : enter e p n k c = enter e p n l c := by
  induction p generalizing n k l c with
  | empty => exact h c rfl
  | set s => rfl
  | textStart => simp only [enter, h c rfl]
  | textEnd => simp only [enter, h c rfl]
  | cat p q hp hq => exact hp _ fun d hd => hq _ fun b hb => h b (hb.trans hd)
  | alt p q hp hq => simp only [enter, hp _ h, hq _ h]
  | star p hp => simp only [enter, h c rfl]
  | plus p hp => exact hp _ fun d hd => by rw [h d hd]
  | opt p hp => simp only [enter, hp _ h, h c rfl]
  | group i p hp => exact hp _ fun d hd => h _ hd

/-! ### Behind the sets -/

/-- The sets of a pattern, each with what is run behind it. -/
def behind : Pattern → (Cursor → Option α) → List (CharSet × (Cursor → Option α))
  | empty, _ | textStart, _ | textEnd, _ => []
  | set s, k => [(s, k)]
  | cat p q, k => p.behind (q.run k) ++ q.behind k
  | alt p q, k => p.behind k ++ q.behind k
  | star p, k | plus p, k => p.behind ((star p).run k)
  | opt p, k => p.behind k
  | group i p, k => p.behind fun c => k (c.mark (.closed i))

theorem length_behind (p : Pattern) (k : Cursor → Option α) : (p.behind k).length = p.size := by
  induction p generalizing k with
  | empty => rfl
  | set s => rfl
  | textStart => rfl
  | textEnd => rfl
  | cat p q hp hq => rw [behind, List.length_append, hp, hq, size]
  | alt p q hp hq => rw [behind, List.length_append, hp, hq, size]
  | star p hp => exact hp _
  | plus p hp => exact hp _
  | opt p hp => exact hp _
  | group i p hp => exact hp _

theorem behind_blind (p : Pattern) {k : Cursor → Option α} (h : Blind k) :
    ∀ row ∈ p.behind k, Blind row.2 := by
  induction p generalizing k with
  | empty => simp [behind]
  | set s => simpa [behind] using h
  | textStart => simp [behind]
  | textEnd => simp [behind]
  | cat p q hp hq =>
    intro row hr
    rcases List.mem_append.mp hr with hr | hr
    exacts [hp (run_blind q h) row hr, hq h row hr]
  | alt p q hp hq =>
    intro row hr
    rcases List.mem_append.mp hr with hr | hr
    exacts [hp h row hr, hq h row hr]
  | star p hp => exact hp (run_blind (star p) h)
  | plus p hp => exact hp (run_blind (star p) h)
  | opt p hp => exact hp h
  | group i p hp => exact hp fun c d hr hpos => h _ _ hr hpos

/-- From `bound` on, `e` reads the sets of `rows`, numbered from `n`, and goes on as they say. -/
def Continues (e : Option Nat → Cursor → Option α) (n : Nat)
    (rows : List (CharSet × (Cursor → Option α))) (bound : Nat) : Prop :=
  ∀ j s f, rows[j]? = some (s, f) →
    ∀ c : Cursor, c.rest.length ≤ bound → e (some (n + j)) c = (c.next s).bind f

theorem continues_append {n b : Nat} {xs ys : List (CharSet × (Cursor → Option α))} :
    Continues e n (xs ++ ys) b ↔ Continues e n xs b ∧ Continues e (n + xs.length) ys b := by
  constructor
  · intro h
    constructor
    · intro j s f hj
      refine h j s f ?_
      rw [List.getElem?_append_left (List.getElem?_eq_some_iff.mp hj).1, hj]
    · intro j s f hj c hc
      rw [Nat.add_assoc]
      refine h (xs.length + j) s f ?_ c hc
      rw [List.getElem?_append_right (Nat.le_add_right ..), Nat.add_sub_cancel_left, hj]
  · rintro ⟨h1, h2⟩ j s f hj c hc
    by_cases hl : j < xs.length
    · rw [List.getElem?_append_left hl] at hj
      exact h1 j s f hj c hc
    · rw [List.getElem?_append_right (by omega)] at hj
      have := h2 _ s f hj c hc
      rwa [show n + xs.length + (j - xs.length) = n + j by omega] at this

/-- Behind a set less is left of the text, so continuations need to agree only there. -/
theorem Continues.congr {p : Pattern} {n b : Nat} {k l : Cursor → Option α}
    (h : Continues e n (p.behind k) b)
    (hkl : ∀ d : Cursor, d.rest.length < b → k d = l d) : Continues e n (p.behind l) b := by
  induction p generalizing n k l with
  | empty => exact h
  | textStart => exact h
  | textEnd => exact h
  | set s =>
    intro j t f hj c hc
    cases j with
    | succ j => cases hj
    | zero =>
      cases hj
      rw [h 0 s k rfl c hc]
      cases hn : c.next s with
      | none => rfl
      | some d => exact hkl d (by have := Cursor.length_next hn; omega)
  | cat p q hp hq =>
    rw [behind, continues_append, length_behind] at h ⊢
    exact ⟨hp h.1 fun d hd => run_congr q fun c hc => hkl c (by omega), hq h.2 hkl⟩
  | alt p q hp hq =>
    rw [behind, continues_append, length_behind] at h ⊢
    exact ⟨hp h.1 hkl, hq h.2 hkl⟩
  | star p hp => exact hp h fun d hd => run_congr (star p) fun c hc => hkl c (by omega)
  | plus p hp => exact hp h fun d hd => run_congr (star p) fun c hc => hkl c (by omega)
  | opt p hp => exact hp h hkl
  | group i p hp => exact hp h fun d hd => hkl _ hd

theorem run_star_eq_enter {p : Pattern} {n : Nat} {k : Cursor → Option α} {c : Cursor}
    (hp : ∀ (k : Cursor → Option α) (c : Cursor), Continues e n (p.behind k) c.rest.length →
      p.run k c = enter e p n k c)
    (h : Continues e n (p.behind ((star p).run k)) c.rest.length) :
    (star p).run k c = enter e (star p) n k c := by
  rw [run_star, enter]
  congr 1
  rw [hp _ c (h.congr fun d hd => (if_pos hd).symm)]
  refine enter_congr p n fun d hd => if_neg ?_
  rw [hd]
  exact lt_irrefl _

theorem run_eq_enter (p : Pattern) (n : Nat) (k : Cursor → Option α) (c : Cursor)
    (h : Continues e n (p.behind k) c.rest.length) : p.run k c = enter e p n k c := by
  induction p generalizing n k c with
  | empty => rfl
  | set s => exact (h 0 s k rfl c le_rfl).symm
  | textStart => rfl
  | textEnd => rfl
  | cat p q hp hq =>
    rw [behind, continues_append, length_behind] at h
    rw [run, enter, hp n _ c h.1]
    exact enter_congr p n fun d hd => hq _ k d (by rw [hd]; exact h.2)
  | alt p q hp hq =>
    rw [behind, continues_append, length_behind] at h
    rw [run, enter, hp n k c h.1, hq _ k c h.2]
  | star p hp => exact run_star_eq_enter (hp n) h
  | plus p hp =>
    show p.run ((star p).run k) c = _
    rw [hp n _ c h, enter]
    exact enter_congr p n fun d hd => run_star_eq_enter (hp n) (by rw [hd]; exact h)
  | opt p hp => rw [run, enter, hp n k c h]
  | group i p hp => exact hp n _ _ h

theorem run_outlook (p : Pattern) (he : ∀ t, Blind (e t)) {n : Nat} {ws : List Way}
    (h : ∀ b, Continues e n (p.behind (outlook e ws)) b) :
    p.run (outlook e ws) = outlook e (p.ways n ws) := by
  rw [← enter_eq_outlook he]
  funext c
  exact run_eq_enter p n _ c (h _)

/-- The rows of a pattern hold the ways behind its sets. -/
theorem behind_eq_rows (he : ∀ t, Blind (e t)) {p : Pattern} {n : Nat} {ws : List Way}
    (h : ∀ b, Continues e n (p.behind (outlook e ws)) b) :
    p.behind (outlook e ws) = (p.rows n ws).map fun row => (row.1, outlook e row.2) := by
  induction p generalizing n ws with
  | empty => rfl
  | set s => rfl
  | textStart => rfl
  | textEnd => rfl
  | cat p q hp hq =>
    have h' := fun b => continues_append.mp (h b)
    simp only [length_behind] at h'
    have hq' := run_outlook q he fun b => (h' b).2
    rw [hq'] at h'
    rw [behind, rows, List.map_append, hq', hp fun b => (h' b).1, hq fun b => (h' b).2]
  | alt p q hp hq =>
    have h' := fun b => continues_append.mp (h b)
    simp only [length_behind] at h'
    rw [behind, rows, List.map_append, hp fun b => (h' b).1, hq fun b => (h' b).2]
  | star p hp =>
    have hs : (star p).run (outlook e ws) = outlook e (merge (p.ways n []) ws) :=
      run_outlook (star p) he h
    simp only [behind, hs] at h
    rw [behind, hs, hp h, rows]
  | plus p hp =>
    have hs : (star p).run (outlook e ws) = outlook e (merge (p.ways n []) ws) :=
      run_outlook (star p) he h
    simp only [behind, hs] at h
    rw [behind, hs, hp h, rows]
  | opt p hp => exact hp h
  | group i p hp =>
    simp only [behind, ← outlook_behind] at h
    rw [behind, ← outlook_behind, hp h, rows]

end Pattern

/-! ### Threads -/

namespace Automaton

open Way

/-- What the first good thread leads to. -/
def outcome (e : Option Nat → Cursor → Option α) (ts : List Thread) : Option α :=
  ts.findSome? fun t => e t.state t.cursor

theorem outcome_cons (t : Thread) (ts : List Thread) :
    outcome e (t :: ts) = (e t.state t.cursor <|> outcome e ts) := by
  unfold outcome
  rw [List.findSome?_cons]
  split <;> simp_all

theorem outcome_threads (ws : List Way) (c : Cursor) :
    outcome e (threads ws c) = outlook e ws c := by
  induction ws with
  | nil => rfl
  | cons w ws ih =>
    rw [outlook_cons, ← ih]
    unfold threads
    rw [List.filter_cons]
    split
    · rw [List.map_cons, outcome_cons]
    · simp

/-- All threads are at one place. -/
def At (rest : List Char) (pos : Nat) (ts : List Thread) : Prop :=
  ∀ t ∈ ts, t.cursor.rest = rest ∧ t.cursor.pos = pos

theorem at_threads (ws : List Way) (c : Cursor) : At c.rest c.pos (threads ws c) := by
  intro t ht
  obtain ⟨w, _, rfl⟩ := List.mem_map.mp ht
  exact ⟨follow_rest w c, follow_pos w c⟩

theorem at_step (a : Automaton) {x : Char} {xs : List Char} {pos : Nat} {ts : List Thread}
    (h : At (x :: xs) pos ts) : At xs (pos + 1) (ts.flatMap a.step) := by
  intro t ht
  obtain ⟨s, hs, ht⟩ := List.mem_flatMap.mp ht
  obtain ⟨hr, hp⟩ := h s hs
  unfold step at ht
  split at ht
  · cases ht
  · next row ws _ =>
    split at ht
    · cases ht
    · next c hc =>
      rw [Cursor.next, hr] at hc
      dsimp only at hc
      split at hc
      · cases hc
        obtain ⟨h1, h2⟩ := at_threads ws _ t ht
        exact ⟨h1, by rw [h2, hp]⟩
      · cases hc

theorem at_sift (accept : Cursor → Bool) (seen : List Nat) {rest : List Char} {pos : Nat}
    {ts : List Thread} (h : At rest pos ts) :
    At rest pos (sift accept seen ts).1 ∧ ∀ t ∈ (sift accept seen ts).1, t.state.isSome := by
  induction ts generalizing seen with
  | nil => exact ⟨fun _ h => (List.not_mem_nil h).elim, fun _ h => (List.not_mem_nil h).elim⟩
  | cons t ts ih =>
    have ih' := fun seen => ih seen fun t ht => h t (List.mem_cons_of_mem _ ht)
    obtain ⟨state, c⟩ := t
    cases state with
    | none =>
      rw [sift]
      split
      · exact ⟨fun _ h => (List.not_mem_nil h).elim, fun _ h => (List.not_mem_nil h).elim⟩
      · exact ih' seen
    | some i =>
      rw [sift]
      split
      · exact ih' seen
      · obtain ⟨h1, h2⟩ := ih' (i :: seen)
        constructor
        · intro t ht
          rcases List.mem_cons.mp ht with rfl | ht
          exacts [h _ (List.mem_cons_self ..), h1 t ht]
        · intro t ht
          rcases List.mem_cons.mp ht with rfl | ht
          exacts [rfl, h2 t ht]

/-- A thread in a state that failed at this place fails, and none comes before one that is over. -/
theorem outcome_sift {e : Option Nat → Cursor → Option Cursor} {accept : Cursor → Bool}
    (he : ∀ t, Blind (e t)) (hn : ∀ c, e none c = if accept c then some c else none)
    (seen : List Nat) {rest : List Char} {pos : Nat} {ts : List Thread} (h : At rest pos ts)
    (hs : ∀ i ∈ seen, ∀ c : Cursor, c.rest = rest → c.pos = pos → e (some i) c = none) :
    outcome e ts = (outcome e (sift accept seen ts).1 <|> (sift accept seen ts).2) := by
  induction ts generalizing seen with
  | nil => rfl
  | cons t ts ih =>
    have ih' := fun seen => ih seen fun t ht => h t (List.mem_cons_of_mem _ ht)
    obtain ⟨hr, hp⟩ := h t (List.mem_cons_self ..)
    obtain ⟨state, c⟩ := t
    rw [outcome_cons]
    cases state with
    | none =>
      rw [sift]
      by_cases ha : accept c
      · simp [hn, ha, outcome]
      · simp only [hn, ha, Bool.false_eq_true, if_false, none_orElse]
        exact ih' seen hs
    | some i =>
      rw [sift]
      by_cases hi : i ∈ seen
      · simp only [hs i hi c hr hp, List.contains_iff_mem.mpr hi, if_true, none_orElse]
        exact ih' seen hs
      · simp only [List.contains_iff_mem, hi, if_false]
        rw [outcome_cons]
        cases hc : e (some i) c with
        | some d => simp
        | none =>
          simp only [none_orElse]
          refine ih' (i :: seen) fun j hj d hdr hdp => ?_
          rcases List.mem_cons.mp hj with rfl | hj
          · exact (he (some j)).eq_none (hr.trans hdr.symm) (hp.trans hdp.symm) hc
          · exact hs j hj d hdr hdp

/-- The states of `a` go on as `e` says. -/
def Follows (a : Automaton) (e : Option Nat → Cursor → Option α) : Prop :=
  ∀ i c, e (some i) c = outcome e (a.step ⟨some i, c⟩)

theorem outcome_flatMap {a : Automaton} (ha : a.Follows e) (ts : List Thread)
    (h : ∀ t ∈ ts, t.state.isSome) : outcome e (ts.flatMap a.step) = outcome e ts := by
  induction ts with
  | nil => rfl
  | cons t ts ih =>
    have ht := h t (List.mem_cons_self ..)
    obtain ⟨_ | i, c⟩ := t
    · cases ht
    · rw [outcome_cons, List.flatMap_cons, ha i c, ← ih fun t ht => h t (List.mem_cons_of_mem _ ht)]
      unfold outcome
      rw [List.findSome?_append]
      simp

theorem advance_eq {a : Automaton} {e : Option Nat → Cursor → Option Cursor}
    {accept : Cursor → Bool} (he : ∀ t, Blind (e t))
    (hn : ∀ c, e none c = if accept c then some c else none) (ha : a.Follows e)
    {rest : List Char} {pos : Nat} {ts : List Thread} {best : Option Cursor} (h : At rest pos ts)
    (hs : ∀ t ∈ ts, t.state.isSome) :
    a.advance accept rest ts best = (outcome e ts <|> best) := by
  induction rest generalizing pos ts best with
  | nil =>
    have h0 : outcome e ts = none := by
      refine List.findSome?_eq_none_iff.mpr fun t ht => ?_
      have hst := hs t ht
      obtain ⟨hr, _⟩ := h t ht
      obtain ⟨_ | i, c⟩ := t
      · cases hst
      · rw [ha i c, step]
        split
        · rfl
        · rw [Cursor.next, hr]; rfl
    rw [advance, h0]
    simp
  | cons x xs ih =>
    rw [advance]
    split
    · next hts =>
      rw [List.isEmpty_iff.mp hts]
      simp [outcome]
    · have hat := at_step a h
      obtain ⟨h1, h2⟩ := at_sift accept [] hat
      dsimp only
      rw [ih h1 h2, ← outcome_flatMap ha ts hs,
        outcome_sift he hn [] hat fun i hi => (List.not_mem_nil hi).elim]
      generalize outcome e (sift accept [] (ts.flatMap a.step)).1 = x
      generalize (sift accept [] (ts.flatMap a.step)).2 = y
      cases x <;> cases y <;> simp

end Automaton

namespace Pattern

open Way Automaton

/-- What is to come behind each set of a pattern, and at its end. -/
def prospect (p : Pattern) (k : Cursor → Option α) : Option Nat → Cursor → Option α
  | none, c => k c
  | some i, c =>
    match (p.behind k)[i]? with
    | none => none
    | some (s, f) => (c.next s).bind f

theorem prospect_blind (p : Pattern) {k : Cursor → Option α} (h : Blind k) (t : Option Nat) :
    Blind (p.prospect k t) := by
  cases t with
  | none => exact h
  | some i =>
    intro c d hr hp
    rw [prospect, prospect]
    cases hi : (p.behind k)[i]? with
    | none => rfl
    | some row => exact (behind_blind p h row (List.mem_of_getElem? hi)).next row.1 c d hr hp

theorem continues_prospect (p : Pattern) (k : Cursor → Option α) (b : Nat) :
    Continues (p.prospect k) 0 (p.behind k) b := by
  intro j s f hj c _
  rw [Nat.zero_add, prospect, hj]

/-- The automaton of a pattern answers what the pattern answers. -/
theorem find_automaton (p : Pattern) {accept : Cursor → Bool}
    (h : ∀ c d : Cursor, c.rest = d.rest → c.pos = d.pos → accept c = accept d) :
    p.automaton.find accept = p.find accept := by
  funext c
  have hk : Blind fun c => if accept c then some c else none := by
    intro c d hr hp
    simp only [h c d hr hp]
    split <;> rfl
  generalize hkd : (fun c => if accept c then some c else none) = k at hk
  have he := p.prospect_blind hk
  have hout : outlook (p.prospect k) [.direct none] = k := outlook_direct none
  have hcont := p.continues_prospect k
  have hrun : p.run k = outlook (p.prospect k) p.automaton.entry := by
    rw [automaton, ← run_outlook p he (by rw [hout]; exact hcont), hout]
  have hrows : p.behind k =
      (p.rows 0 [.direct none]).map fun row => (row.1, outlook (p.prospect k) row.2) := by
    rw [← behind_eq_rows he (by rw [hout]; exact hcont), hout]
  have hstep : p.automaton.Follows (p.prospect k) := by
    intro i c
    rw [prospect, hrows, List.getElem?_map]
    simp only [step, automaton, Option.bind_some, List.getElem?_toArray]
    cases (p.rows 0 [.direct none])[i]? with
    | none => rfl
    | some row =>
      obtain ⟨s, ws⟩ := row
      simp only [Option.map_some]
      cases c.next s with
      | none => rfl
      | some d => exact (outcome_threads ws d).symm
  have hn : ∀ c, p.prospect k none c = if accept c then some c else none := by
    intro c
    rw [prospect, ← hkd]
  have hat := at_threads p.automaton.entry c
  obtain ⟨h1, h2⟩ := at_sift accept [] hat
  rw [Automaton.find, advance_eq he hn hstep h1 h2, ← outcome_sift he hn [] hat
    (fun i hi => (List.not_mem_nil hi).elim), outcome_threads, ← hrun, find, hkd]

theorem tokens_automaton (p : Pattern) (text : List Char) :
    p.automaton.tokens text = p.tokens text := by
  have h : p.automaton.stopAt = p.stopAt := by
    funext rest pos
    rw [Automaton.stopAt, find_automaton p fun _ _ _ _ => rfl, stopAt]
  rw [Automaton.tokens, h, tokens]

end Pattern

end Reckon
