import Mathlib
import Reckon.Proofs.Outcomes

/-!
# The preferred outcome is the farthest

`Greedy p c`: the outcomes of `p` at `c` come in the order from the farthest to the nearest. It is
inherited by a sequence if only one outcome of the first pattern lets the second go on, which holds
when the texts of the first have no character that the second starts with (`greedy_cat`), and by a
choice if the outcomes of the left side are the farther ones, as they are when a character that
every text of the left side has is in no text of the right side (`greedy_alt_mem`).
-/

namespace Reckon.Pattern

variable {p q : Pattern} {c d : Cursor}

def Greedy (p : Pattern) (c : Cursor) : Prop :=
  (p.outcomes c).Pairwise fun a b => b.pos < a.pos

/-- No text of `p` has a character of `Q`. -/
def Avoids (p : Pattern) (Q : Char → Prop) : Prop :=
  ∀ w pos ms, Reads p w pos ms → ∀ x ∈ w, ¬ Q x

/-- Each text of `p` starts with a character of `Q`. -/
def Starts (p : Pattern) (Q : Char → Prop) : Prop :=
  ∀ w pos ms, Reads p w pos ms → ∃ x t, w = x :: t ∧ Q x

/-- Each text of `p` has the character `e`. -/
def Has (p : Pattern) (e : Char) : Prop := ∀ w pos ms, Reads p w pos ms → e ∈ w

/-! ### Texts that avoid characters, start with them or have them -/

section
variable {Q : Char → Prop} {i : Nat}

theorem Avoids.group (h : p.Avoids Q) : (Pattern.group i p).Avoids Q := by
  intro w pos ms hw
  obtain ⟨ns, hw, _⟩ := reads_group_iff.mp hw
  exact h w pos ns hw

theorem Avoids.cat (hp : p.Avoids Q) (hq : q.Avoids Q) : (Pattern.cat p q).Avoids Q := by
  intro w pos ms hw x hx
  obtain ⟨u, v, _, _, hu, hv, rfl, _⟩ := reads_cat_iff.mp hw
  rcases List.mem_append.mp hx with hx | hx
  exacts [hp u _ _ hu x hx, hq v _ _ hv x hx]

theorem Avoids.alt (hp : p.Avoids Q) (hq : q.Avoids Q) : (Pattern.alt p q).Avoids Q := by
  intro w pos ms hw
  rcases reads_alt_iff.mp hw with hw | hw
  exacts [hp w _ _ hw, hq w _ _ hw]

theorem Avoids.opt (h : p.Avoids Q) : (Pattern.opt p).Avoids Q := by
  intro w pos ms hw
  rcases reads_opt_iff.mp hw with hw | ⟨rfl, _⟩
  exacts [h w _ _ hw, nofun]

theorem Starts.group (h : p.Starts Q) : (Pattern.group i p).Starts Q := by
  intro w pos ms hw
  obtain ⟨ns, hw, _⟩ := reads_group_iff.mp hw
  exact h w pos ns hw

theorem Starts.cat (hp : p.Starts Q) : (Pattern.cat p q).Starts Q := by
  intro w pos ms hw
  obtain ⟨u, v, _, _, hu, _, rfl, _⟩ := reads_cat_iff.mp hw
  obtain ⟨x, t, rfl, hx⟩ := hp u _ _ hu
  exact ⟨x, t ++ v, rfl, hx⟩

theorem Starts.alt (hp : p.Starts Q) (hq : q.Starts Q) : (Pattern.alt p q).Starts Q := by
  intro w pos ms hw
  rcases reads_alt_iff.mp hw with hw | hw
  exacts [hp w _ _ hw, hq w _ _ hw]

theorem Starts.opt_cat (hp : p.Starts Q) (hq : q.Starts Q) :
    (Pattern.cat (Pattern.opt p) q).Starts Q := by
  intro w pos ms hw
  obtain ⟨u, v, _, _, hu, hv, rfl, _⟩ := reads_cat_iff.mp hw
  rcases reads_opt_iff.mp hu with hu | ⟨rfl, _⟩
  · obtain ⟨x, t, rfl, hx⟩ := hp u _ _ hu
    exact ⟨x, t ++ v, rfl, hx⟩
  · exact hq v _ _ hv

theorem Has.group {e : Char} (h : p.Has e) : (Pattern.group i p).Has e := by
  intro w pos ms hw
  obtain ⟨ns, hw, _⟩ := reads_group_iff.mp hw
  exact h w pos ns hw

theorem Has.left {e : Char} (h : p.Has e) : (Pattern.cat p q).Has e := by
  intro w pos ms hw
  obtain ⟨u, v, _, _, hu, _, rfl, _⟩ := reads_cat_iff.mp hw
  exact List.mem_append_left v (h u _ _ hu)

theorem Has.right {e : Char} (h : q.Has e) : (Pattern.cat p q).Has e := by
  intro w pos ms hw
  obtain ⟨u, v, _, _, _, hv, rfl, _⟩ := reads_cat_iff.mp hw
  exact List.mem_append_right u (h v _ _ hv)

theorem Starts.has {e : Char} (h : p.Starts (· = e)) : p.Has e := by
  intro w pos ms hw
  obtain ⟨x, t, rfl, rfl⟩ := h w pos ms hw
  exact List.mem_cons_self ..

theorem outcomes_eq_nil {e : Char} (hf : p.free) (he : p.Has e) (hc : e ∉ c.rest) :
    p.outcomes c = [] := by
  refine List.eq_nil_iff_forall_not_mem.mpr fun d hd => ?_
  obtain ⟨w, ms, hw, h⟩ := reads_of_mem_outcomes hf hd
  exact hc (h.rest ▸ List.mem_append_left _ (he w _ _ hw))

theorem Starts.mono {Q' : Char → Prop} (h : p.Starts Q) (hQ : ∀ x, Q x → Q' x) : p.Starts Q' := by
  intro w pos ms hw
  obtain ⟨x, t, hx, hxq⟩ := h w pos ms hw
  exact ⟨x, t, hx, hQ x hxq⟩

end

theorem Greedy.head {m : Cursor} (h : p.Greedy c) (hm : (p.outcomes c).head? = some m)
    (hd : d ∈ p.outcomes c) : d.pos ≤ m.pos := by
  obtain ⟨ds, hds⟩ := List.head?_eq_some_iff.mp hm
  rw [Greedy, hds] at h
  rw [hds] at hd
  rcases List.mem_cons.mp hd with rfl | hd
  · exact le_rfl
  · exact (List.rel_of_pairwise_cons h hd).le

theorem greedy_set (s : CharSet) (c : Cursor) : (set s).Greedy c := by
  rw [Greedy, outcomes]
  cases c.next s with
  | none => exact .nil
  | some d => exact List.pairwise_singleton _ _

theorem greedy_group {i : Nat} (h : p.Greedy (c.mark (.opened i))) : (group i p).Greedy c := by
  rw [Greedy, outcomes, List.pairwise_map]
  exact h

theorem pos_le_of_mem (hp : p.free) (hd : d ∈ p.outcomes c) : c.pos ≤ d.pos := by
  obtain ⟨w, ms, _, h⟩ := reads_of_mem_outcomes hp hd
  rw [h.pos]
  exact Nat.le_add_right _ _

/-! ### Repetitions and options -/

theorem greedy_star_set (s : CharSet) (c : Cursor) : (star (set s)).Greedy c := by
  obtain ⟨n, hn⟩ : ∃ n, c.rest.length ≤ n := ⟨_, le_rfl⟩
  induction n generalizing c with
  | zero =>
    rw [Greedy, outcomes_star]
    simp [show c.rest.length = 0 by omega]
  | succ n ih =>
    rw [Greedy, outcomes_star]
    cases hd : c.next s with
    | none => simp [outcomes, hd]
    | some d =>
      obtain ⟨x, _, hpass⟩ := Cursor.Passes.next.mp hd
      have hlen : d.rest.length < c.rest.length := by
        rw [hpass.rest, List.length_append, List.length_singleton]
        omega
      simp only [outcomes, hd, Option.toList_some, List.filter_singleton, hlen, decide_true, cond_true,
        List.flatMap_singleton]
      refine List.pairwise_append.mpr ⟨ih d (by omega), List.pairwise_singleton _ _, ?_⟩
      intro a ha b hb
      rw [List.mem_singleton.mp hb]
      have := pos_le_of_mem (p := star (set s)) rfl ha
      rw [hpass.pos, List.length_singleton] at this
      omega

theorem greedy_opt (hp : p.Greedy c) (hfree : p.free) {Q : Char → Prop} (hs : p.Starts Q) :
    (opt p).Greedy c := by
  refine List.pairwise_append.mpr ⟨hp, List.pairwise_singleton _ _, ?_⟩
  intro a ha b hb
  obtain ⟨w, ms, hw, h⟩ := reads_of_mem_outcomes hfree ha
  obtain ⟨x, t, rfl, _⟩ := hs w c.pos ms hw
  rw [List.mem_singleton.mp hb, h.pos, List.length_cons]
  omega

/-! ### Sequences -/

theorem greedy_cat {Q : Char → Prop} (hpf : p.free) (hqf : q.free) (hp : p.Greedy c)
    (hq : ∀ d ∈ p.outcomes c, q.Greedy d) (ha : p.Avoids Q) (hs : q.Starts Q) :
    (cat p q).Greedy c := by
  refine List.pairwise_flatMap.mpr ⟨hq, List.Pairwise.imp_of_mem ?_ hp⟩
  intro a b hma hmb hlt x hx y hy
  -- both `a` and `b` let `q` go on, but the text up to the farther one has no place for that
  obtain ⟨u, ms, hu, hca⟩ := reads_of_mem_outcomes hpf hma
  obtain ⟨v, ns, hv, hcb⟩ := reads_of_mem_outcomes hpf hmb
  obtain ⟨s, ks, hxs, hax⟩ := reads_of_mem_outcomes hqf hx
  obtain ⟨t, ls, hyt, hby⟩ := reads_of_mem_outcomes hqf hy
  obtain ⟨e, s, rfl, he⟩ := hs _ _ _ hxs
  obtain ⟨f, t, rfl, hf⟩ := hs _ _ _ hyt
  have hrest := hca.rest.symm.trans hcb.rest
  rw [hax.rest, hby.rest] at hrest
  obtain ⟨rfl, _⟩ := append_unique (P := fun x => ¬ Q x) (ha u _ _ hu) (ha v _ _ hv)
    (fun x hx => by rw [← Option.some.inj hx]; exact not_not.mpr he)
    (fun x hx => by rw [← Option.some.inj hx]; exact not_not.mpr hf) hrest
  rw [hca.pos, hcb.pos] at hlt
  exact absurd hlt (lt_irrefl _)

theorem greedy_set_cat {s : CharSet} (hq : ∀ d, q.Greedy d) : (cat (set s) q).Greedy c := by
  rw [Greedy, outcomes, outcomes]
  cases c.next s with
  | none => exact .nil
  | some d => simpa [Greedy] using hq d

theorem greedy_cat_set {s : CharSet} (hp : p.Greedy c) : (cat p (set s)).Greedy c := by
  refine List.pairwise_flatMap.mpr ⟨fun d _ => greedy_set s d, hp.imp ?_⟩
  intro a b hlt x hx y hy
  obtain ⟨_, _, hax⟩ := Cursor.Passes.next.mp (Option.mem_toList.mp hx)
  obtain ⟨_, _, hby⟩ := Cursor.Passes.next.mp (Option.mem_toList.mp hy)
  rw [hax.pos, hby.pos]
  exact Nat.add_lt_add_right hlt _

/-! ### Choices -/

/-- What stands before the first `e` of a text is at least as long as any start without `e`. -/
theorem length_le_of_not_mem {e : Char} {x y w s t : List Char} (h : (x ++ e :: y) ++ s = w ++ t)
    (he : e ∉ w) : w.length ≤ x.length := by
  rw [List.append_assoc] at h
  rcases List.append_eq_append_iff.mp h with ⟨z, rfl, hz⟩ | ⟨z, rfl, _⟩
  · cases z with
    | nil => rw [List.append_nil]
    | cons f z =>
      obtain ⟨rfl, _⟩ := List.cons.inj hz
      exact absurd (by simp) he
  · rw [List.length_append]
    exact Nat.le_add_right _ _

theorem greedy_alt_mem {e : Char} (hpf : p.free) (hqf : q.free) (hp : p.Greedy c)
    (hq : q.Greedy c) (he : p.Has e) (ha : q.Avoids (· = e)) :
    (alt p q).Greedy c := by
  refine List.pairwise_append.mpr ⟨hp, hq, fun a hma b hmb => ?_⟩
  obtain ⟨u, ms, hu, hca⟩ := reads_of_mem_outcomes hpf hma
  obtain ⟨v, ns, hv, hcb⟩ := reads_of_mem_outcomes hqf hmb
  obtain ⟨x, y, rfl⟩ := List.append_of_mem (he u _ _ hu)
  have := length_le_of_not_mem (hca.rest.symm.trans hcb.rest) fun h => ha v _ _ hv e h rfl
  rw [hca.pos, hcb.pos, List.length_append, List.length_cons]
  omega

theorem greedy_alt_starts {Q : Char → Prop} (hpf : p.free) (hqf : q.free) (hp : p.Greedy c)
    (hq : q.Greedy c) (hps : p.Starts Q) (hqs : q.Starts fun x => ¬ Q x) : (alt p q).Greedy c := by
  refine List.pairwise_append.mpr ⟨hp, hq, fun a hma b hmb => ?_⟩
  obtain ⟨u, ms, hu, hca⟩ := reads_of_mem_outcomes hpf hma
  obtain ⟨v, ns, hv, hcb⟩ := reads_of_mem_outcomes hqf hmb
  obtain ⟨x, s, rfl, hx⟩ := hps _ _ _ hu
  obtain ⟨y, t, rfl, hy⟩ := hqs _ _ _ hv
  have := hca.rest.symm.trans hcb.rest
  exact absurd ((List.cons.inj this).1 ▸ hx) hy

end Reckon.Pattern
