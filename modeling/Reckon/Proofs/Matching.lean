import Mathlib
import Reckon.Pattern.Matching

/-!
# How a pattern runs

What a run depends on: it asks its continuation only at places further on (`run_congr`), and whether
it succeeds depends on the place alone if the same holds of the continuation (`run_blind`). A
repetition is one round and then itself, or nothing (`run_star`), so its bound never shows.
-/

namespace Reckon

variable {α : Type}

theorem Cursor.length_next {c d : Cursor} {s : CharSet} (h : c.next s = some d) :
    d.rest.length + 1 = c.rest.length := by
  unfold Cursor.next at h
  split at h
  · cases h
  · next x xs hc =>
    split at h
    · cases h; simp [hc]
    · cases h

/-- The answer's being there depends on the place alone, not on the marks. -/
def Blind (f : Cursor → Option α) : Prop :=
  ∀ c d : Cursor, c.rest = d.rest → c.pos = d.pos → (f c).isSome = (f d).isSome

theorem Blind.next {f : Cursor → Option α} (h : Blind f) (s : CharSet) :
    Blind fun c => (c.next s).bind f := by
  intro c d hr hp
  obtain ⟨rest, pos, marks⟩ := c
  obtain ⟨rest', pos', marks'⟩ := d
  cases hr
  cases hp
  cases rest with
  | nil => rfl
  | cons x xs =>
    by_cases hx : s.mem x
    · simpa [Cursor.next, hx] using h ⟨xs, pos + 1, marks⟩ ⟨xs, pos + 1, marks'⟩ rfl rfl
    · simp [Cursor.next, hx]

theorem Blind.eq_none {f : Cursor → Option α} (h : Blind f) {c d : Cursor} (hr : c.rest = d.rest)
    (hp : c.pos = d.pos) (hc : f c = none) : f d = none := by
  rw [← Option.not_isSome_iff_eq_none, ← h c d hr hp, hc]
  exact Bool.false_ne_true

theorem none_orElse (a : Option α) : (none <|> a) = a := rfl

theorem orElse_none (a : Option α) : (a <|> none) = a := by
  cases a <;> rfl

theorem isSome_orElse (a b : Option α) : (a <|> b).isSome = (a.isSome || b.isSome) := by
  cases a <;> rfl

namespace Pattern

/-! ### Continuations -/

section
variable {body : (Cursor → Option α) → Cursor → Option α} {k l : Cursor → Option α}

theorem iterate_none (hb : ∀ c, body (fun _ => none) c = none) (fuel : Nat) (c : Cursor) :
    iterate body (fun _ => none) fuel c = none := by
  induction fuel generalizing c with
  | zero => rfl
  | succ fuel ih => simp [iterate, ih, hb]

theorem iterate_congr
    (hb : ∀ (k l : Cursor → Option α) (c : Cursor),
      (∀ d : Cursor, d.rest.length ≤ c.rest.length → k d = l d) → body k c = body l c)
    (fuel : Nat) {c : Cursor} (h : ∀ d : Cursor, d.rest.length ≤ c.rest.length → k d = l d) :
    iterate body k fuel c = iterate body l fuel c := by
  induction fuel generalizing c with
  | zero => exact h c le_rfl
  | succ fuel ih =>
    rw [iterate, iterate, h c le_rfl]
    congr 1
    refine hb _ _ c fun d _ => ?_
    split
    · next hd => exact ih fun e he => h e (by omega)
    · rfl

theorem iterate_blind (hb : ∀ k : Cursor → Option α, Blind k → Blind (body k)) (h : Blind k)
    (fuel : Nat) : Blind (iterate body k fuel) := by
  induction fuel with
  | zero => exact h
  | succ fuel ih =>
    intro c d hr hp
    rw [iterate, iterate, hr, isSome_orElse, isSome_orElse, h c d hr hp]
    congr 1
    refine hb _ (fun a b ha hb => ?_) c d hr hp
    rw [ha]
    split
    · exact ih a b ha hb
    · rfl

end

theorem run_none (p : Pattern) (c : Cursor) : p.run (fun _ => (none : Option α)) c = none := by
  induction p generalizing c with
  | empty => rfl
  | set s => simp [run]
  | textStart => simp [run]
  | textEnd => simp [run]
  | cat p q hp hq => simp only [run]; rw [funext hq]; exact hp c
  | alt p q hp hq => simp [run, hp, hq]
  | star p hp => exact iterate_none hp _ c
  | plus p hp => simp only [run, iterate_none hp]; exact hp c
  | opt p hp => simp [run, hp]
  | group i p hp => exact hp _

theorem run_congr (p : Pattern) {k l : Cursor → Option α} {c : Cursor}
    (h : ∀ d : Cursor, d.rest.length ≤ c.rest.length → k d = l d) : p.run k c = p.run l c := by
  induction p generalizing k l c with
  | empty => exact h c le_rfl
  | set s =>
    simp only [run]
    cases hc : c.next s with
    | none => rfl
    | some d => exact h d (by have := Cursor.length_next hc; omega)
  | textStart => simp only [run, h c le_rfl]
  | textEnd => simp only [run, h c le_rfl]
  | cat p q hp hq => exact hp fun d hd => hq fun e he => h e (by omega)
  | alt p q hp hq => simp only [run, hp h, hq h]
  | star p hp => exact iterate_congr (fun _ _ _ => hp) _ h
  | plus p hp =>
    exact hp fun d hd => iterate_congr (fun _ _ _ => hp) _ fun e he => h e (by omega)
  | opt p hp => simp only [run, hp h, h c le_rfl]
  | group i p hp => exact hp fun d hd => h _ hd

theorem run_blind (p : Pattern) {k : Cursor → Option α} (h : Blind k) : Blind (p.run k) := by
  induction p generalizing k with
  | empty => exact h
  | set s => exact h.next s
  | textStart => intro c d hr hp; simp only [run, hp]; split; exacts [h c d hr hp, rfl]
  | textEnd => intro c d hr hp; simp only [run, hr]; split; exacts [h c d hr hp, rfl]
  | cat p q hp hq => exact hp (hq h)
  | alt p q hp hq =>
    intro c d hr hpos
    simp only [run, isSome_orElse, hp h c d hr hpos, hq h c d hr hpos]
  | star p hp =>
    intro c d hr hpos
    simp only [run, hr]
    exact iterate_blind (fun _ => hp) h _ c d hr hpos
  | plus p hp =>
    refine hp fun c d hr hpos => ?_
    simp only [hr]
    exact iterate_blind (fun _ => hp) h _ c d hr hpos
  | opt p hp =>
    intro c d hr hpos
    simp only [run, isSome_orElse, hp h c d hr hpos, h c d hr hpos]
  | group i p hp =>
    intro c d hr hpos
    refine hp (fun a b ha hb => ?_) _ _ hr hpos
    exact h _ _ ha hb

/-! ### Repetition -/

/-- A bound that lets all the rest of the text be read never shows. -/
theorem iterate_eq (p : Pattern) (k : Cursor → Option α) (m n : Nat) (c : Cursor)
    (hm : c.rest.length ≤ m) (hn : c.rest.length ≤ n) :
    iterate p.run k m c = iterate p.run k n c := by
  induction m generalizing n c with
  | zero =>
    cases n with
    | zero => rfl
    | succ n =>
      have h0 : c.rest.length = 0 := by omega
      simp [iterate, h0, run_none]
  | succ m ih =>
    cases n with
    | zero =>
      have h0 : c.rest.length = 0 := by omega
      simp [iterate, h0, run_none]
    | succ n =>
      rw [iterate, iterate]
      congr 1
      refine run_congr p fun d _ => ?_
      split
      · exact ih n d (by omega) (by omega)
      · rfl

theorem run_star (p : Pattern) (k : Cursor → Option α) (c : Cursor) :
    (star p).run k c =
      (p.run (fun d => if d.rest.length < c.rest.length then (star p).run k d else none) c <|>
        k c) := by
  have h : (star p).run k c = iterate p.run k (c.rest.length + 1) c :=
    iterate_eq p k _ _ c le_rfl (by omega)
  rw [h, iterate]
  congr 1
  refine run_congr p fun d _ => ?_
  split
  · exact iterate_eq p k _ _ d (by omega) le_rfl
  · rfl

end Pattern

end Reckon
