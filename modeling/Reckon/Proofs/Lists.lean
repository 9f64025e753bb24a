import Mathlib

/-!
# Lists

Splitting a list where the first or the last element of a kind stands, and look-ups in lists.
-/

namespace Reckon

variable {α β : Type}

/-! ### Splitting -/

/-- Two lists that agree, each split where its first element outside of `P` stands, agree on both
sides. -/
theorem append_unique {P : α → Prop} {u v s t : List α} (hu : ∀ c ∈ u, P c) (hv : ∀ c ∈ v, P c)
    (hs : ∀ c ∈ s.head?, ¬ P c) (ht : ∀ c ∈ t.head?, ¬ P c) (h : u ++ s = v ++ t) :
    u = v ∧ s = t := by
  induction u generalizing v with
  | nil =>
    cases v with
    | nil => exact ⟨rfl, h⟩
    | cons d v =>
      obtain rfl : s = d :: (v ++ t) := h
      exact absurd (hv d (List.mem_cons_self ..)) (hs d rfl)
  | cons c u ih =>
    cases v with
    | nil =>
      obtain rfl : t = c :: (u ++ s) := h.symm
      exact absurd (hu c (List.mem_cons_self ..)) (ht c rfl)
    | cons d v =>
      obtain ⟨rfl, h'⟩ := List.cons.inj h
      obtain ⟨rfl, rfl⟩ := ih (fun x hx => hu x (List.mem_cons_of_mem c hx))
        (fun x hx => hv x (List.mem_cons_of_mem c hx)) h'
      exact ⟨rfl, rfl⟩

/-- The same where the last element of `P` stands. -/
theorem append_unique_last {P : α → Prop} {u v s t : List α} {a b : α} (ha : P a) (hb : P b)
    (hs : ∀ c ∈ s, ¬ P c) (ht : ∀ c ∈ t, ¬ P c) (h : u ++ a :: s = v ++ b :: t) :
    u = v ∧ a = b ∧ s = t := by
  have h' : s.reverse ++ (a :: u.reverse) = t.reverse ++ (b :: v.reverse) := by
    simpa using congrArg List.reverse h
  obtain ⟨hst, huv⟩ := append_unique (P := fun c => ¬ P c)
    (fun c hc => hs c (List.mem_reverse.mp hc)) (fun c hc => ht c (List.mem_reverse.mp hc))
    (fun c hc => by rw [← Option.some.inj hc]; exact not_not.mpr ha)
    (fun c hc => by rw [← Option.some.inj hc]; exact not_not.mpr hb) h'
  obtain ⟨hab, huv⟩ := List.cons.inj huv
  exact ⟨List.reverse_injective huv, hab, List.reverse_injective hst⟩

/-! ### Looking up -/

theorem lookup_cons_ite [DecidableEq α] (k a : α) (x : β) (ms : List (α × β)) :
    List.lookup k ((a, x) :: ms) = if k = a then some x else ms.lookup k := by
  rw [List.lookup_cons]
  by_cases h : k = a
  · simp [h]
  · rw [beq_eq_false_iff_ne.mpr h, if_neg h]

theorem findSome?_flatMap (l : List α) (g : α → List α) (k : α → Option β) :
    (l.flatMap g).findSome? k = l.findSome? fun a => (g a).findSome? k := by
  induction l with
  | nil => rfl
  | cons a l ih =>
    rw [List.flatMap_cons, List.findSome?_append, ih, List.findSome?_cons]
    cases (g a).findSome? k <;> simp

theorem findSome?_ite (l : List α) (P : α → Prop) [DecidablePred P] (k : α → Option β) :
    (l.findSome? fun a => if P a then k a else none) = (l.filter fun a => P a).findSome? k := by
  induction l with
  | nil => rfl
  | cons a l ih =>
    rw [List.findSome?_cons, ih, List.filter_cons]
    by_cases h : P a <;> simp [h, List.findSome?_cons]

theorem findSome?_concat (l : List α) (a : α) (k : α → Option β) :
    (l ++ [a]).findSome? k = (l.findSome? k <|> k a) := by
  rw [List.findSome?_append]
  simp

end Reckon
