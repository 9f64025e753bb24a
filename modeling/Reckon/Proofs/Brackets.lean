import Mathlib
import Reckon.Proofs.Scan

/-!
# Brackets and their partners

A text is `Balanced` if every bracket in it has a partner of its own kind, and the bracket at a
position of a text `IsClosed` if a balanced text and its closing bracket follow. In a balanced text
all opening brackets are closed (`Balanced.closed`).

That one is not closed is told by the `Bracket.depth` of what follows it, the number of brackets that
this opens less that of those it closes. Where no start of a text has a negative one (`Rising`),
nothing in it closes a bracket before it (`Rising.not_isClosed`). Balanced texts are rising, and
opening brackets keep a text rising.

What spells an expression is balanced (`balanced_of_isExpression`).
-/

namespace Reckon

open Spelling

/-! ### Definitions -/

/-- Is it an opening or a closing bracket? -/
def isBracket (c : Char) : Bool := (Bracket.ofOpening c).isSome || (Bracket.ofClosing c).isSome

/-- Texts in which every bracket has its partner. -/
inductive Balanced : List Char → Prop
  | nil : Balanced []
  | char {c : Char} {w : List Char} (h : ¬ isBracket c) (hw : Balanced w) : Balanced (c :: w)
  | group {b : Bracket} {u w : List Char} (hu : Balanced u) (hw : Balanced w) :
      Balanced (b.opening :: (u ++ b.closing :: w))

/-- There is an opening bracket at `p`, and its partner stands behind it. -/
def IsClosed (w : List Char) (p : Nat) : Prop :=
  ∃ (b : Bracket) (u v : List Char), w.drop p = b.opening :: (u ++ b.closing :: v) ∧ Balanced u

theorem isBracket_opening (b : Bracket) : isBracket b.opening := by cases b <;> rfl

theorem opening_ne_closing (b b' : Bracket) : b.opening ≠ b'.closing := by
  cases b <;> cases b' <;> decide

theorem opening_injective {b b' : Bracket} (h : b.opening = b'.opening) : b = b' := by
  revert h
  cases b <;> cases b' <;> decide

theorem not_isBracket_of_isPlain {c : Char} (h : isPlain c) : ¬ isBracket c := by
  obtain ⟨ho, hc, -⟩ := isPlain_iff.mp h
  rw [isBracket, ho, hc]
  exact Bool.false_ne_true

/-! ### Balanced texts -/

section
variable {u v w : List Char} {b : Bracket} {p : Nat}

theorem Balanced.append (hu : Balanced u) (hw : Balanced w) : Balanced (u ++ w) := by
  induction hu with
  | nil => exact hw
  | char h _ ih => exact .char h ih
  | group hu _ _ ih =>
    rw [List.cons_append, List.append_assoc, List.cons_append]
    exact .group hu ih

theorem getElem?_append_cases {c : Char} (h : (u ++ w)[p]? = some c) :
    u[p]? = some c ∨ ∃ q, p = u.length + q ∧ w[q]? = some c := by
  rcases Nat.lt_or_ge p u.length with hp | hp
  · rw [List.getElem?_append_left hp] at h
    exact .inl h
  · rw [List.getElem?_append_right hp] at h
    exact .inr ⟨_, (Nat.add_sub_cancel' hp).symm, h⟩

theorem IsClosed.append_right (h : IsClosed u p) (w : List Char) : IsClosed (u ++ w) p := by
  obtain ⟨b, x, y, hdrop, hx⟩ := h
  have hp : p < u.length := List.length_lt_of_drop_ne_nil (hdrop ▸ List.cons_ne_nil _ _)
  refine ⟨b, x, y ++ w, ?_, hx⟩
  rw [List.drop_append_of_le_length hp.le, hdrop]
  simp

theorem IsClosed.append_left (h : IsClosed w p) (u : List Char) :
    IsClosed (u ++ w) (u.length + p) := by
  obtain ⟨b, x, y, hdrop, hx⟩ := h
  exact ⟨b, x, y, by rw [List.drop_length_add_append, hdrop], hx⟩

theorem Balanced.closed (h : Balanced w) (hp : w[p]? = some b.opening) : IsClosed w p := by
  induction h generalizing p with
  | nil => cases hp
  | @char c w hc _ ih =>
    rcases p with _ | p
    · obtain rfl : c = b.opening := Option.some.inj hp
      exact absurd (isBracket_opening b) hc
    · have := (ih hp).append_left [c]
      rwa [List.length_singleton, Nat.add_comm] at this
  | @group b' u w hu _ ihu ihw =>
    rcases p with _ | p
    · exact ⟨b', u, w, rfl, hu⟩
    · have inner : IsClosed (u ++ b'.closing :: w) p := by
        rcases getElem?_append_cases hp with hp | ⟨q, rfl, hq⟩
        · exact (ihu hp).append_right _
        · rcases q with _ | q
          · exact absurd (Option.some.inj hq).symm (opening_ne_closing b b')
          · have := (ihw hq).append_left (u ++ [b'.closing])
            rwa [List.append_assoc, List.singleton_append, List.length_append, List.length_singleton,
              Nat.add_assoc, Nat.add_comm 1] at this
      have := inner.append_left [b'.opening]
      rwa [List.length_singleton, Nat.add_comm] at this

end

/-! ### Depth -/

namespace Bracket

/-- What a character adds to the number of open brackets. -/
def rise (c : Char) : Int :=
  if (ofOpening c).isSome then 1 else if (ofClosing c).isSome then -1 else 0

/-- The number of brackets that a text opens, less that of those it closes. -/
def depth (w : List Char) : Int := (w.map rise).sum

@[simp] theorem depth_nil : depth [] = 0 := rfl

@[simp] theorem depth_cons (c : Char) (w : List Char) : depth (c :: w) = rise c + depth w :=
  List.sum_cons

@[simp] theorem depth_append (u w : List Char) : depth (u ++ w) = depth u + depth w := by
  rw [depth, List.map_append, List.sum_append]
  rfl

@[simp] theorem rise_opening (b : Bracket) : rise b.opening = 1 := by cases b <;> rfl

@[simp] theorem rise_closing (b : Bracket) : rise b.closing = -1 := by cases b <;> rfl

theorem rise_of_not_isBracket {c : Char} (h : ¬ isBracket c) : rise c = 0 := by
  rw [isBracket, Bool.or_eq_true, not_or] at h
  rw [rise, if_neg h.1, if_neg h.2]

end Bracket

/-- No start of the text closes more brackets than it opens. -/
def Rising (w : List Char) : Prop := ∀ n, 0 ≤ Bracket.depth (w.take n)

section
variable {u w : List Char}

theorem Balanced.depth_eq (h : Balanced w) : Bracket.depth w = 0 := by
  induction h with
  | nil => rfl
  | char hc _ ih => rw [Bracket.depth_cons, Bracket.rise_of_not_isBracket hc, ih, add_zero]
  | group _ _ ihu ihw => simp [ihu, ihw]

theorem Rising.append (hu : Rising u) (hw : Rising w) : Rising (u ++ w) := by
  intro n
  rw [List.take_append, Bracket.depth_append]
  exact add_nonneg (hu n) (hw _)

theorem Rising.opening (hw : Rising w) (b : Bracket) : Rising (b.opening :: w) := by
  intro n
  rcases n with _ | n
  · exact le_rfl
  · rw [List.take_succ_cons, Bracket.depth_cons, Bracket.rise_opening]
    exact add_nonneg zero_le_one (hw n)

theorem Balanced.rising (h : Balanced w) : Rising w := by
  induction h with
  | nil =>
    intro n
    rw [List.take_nil]
    exact le_rfl
  | char hc _ ih =>
    intro n
    rcases n with _ | n
    · exact le_rfl
    · rw [List.take_succ_cons, Bracket.depth_cons, Bracket.rise_of_not_isBracket hc, zero_add]
      exact ih n
  | @group b u w hu _ ihu ihw =>
    intro n
    rcases n with _ | n
    · exact le_rfl
    · rw [List.take_succ_cons, List.take_append, Bracket.depth_cons, Bracket.depth_append,
        Bracket.rise_opening]
      rcases hn : n - u.length with _ | m
      · -- the partner is not part of the start
        rw [List.take_zero, Bracket.depth_nil, add_zero]
        exact add_nonneg zero_le_one (ihu n)
      · rw [List.take_of_length_le (by omega), hu.depth_eq, List.take_succ_cons, Bracket.depth_cons,
          Bracket.rise_closing]
        have := ihw m
        omega

/-- A partner would be one bracket too many. -/
theorem Rising.not_isClosed (hw : Rising w) (u : List Char) (b : Bracket) :
    ¬ IsClosed (u ++ b.opening :: w) u.length := by
  rintro ⟨b', x, y, hdrop, hx⟩
  rw [List.drop_left] at hdrop
  obtain ⟨-, rfl⟩ := List.cons.inj hdrop
  have := hw (x.length + 1)
  rw [List.take_length_add_append, Bracket.depth_append, hx.depth_eq] at this
  simp at this

end

/-! ### What is spelled is balanced -/

mutual
theorem balanced_of_isExpression : ∀ {d : Nat} {w : List Char}, IsExpression d w → Balanced w
  | _, _, .last h => balanced_of_isItem h
  | _, _, .more hu hv => (balanced_of_isItem hu).append (balanced_of_isExpression hv)
theorem balanced_of_isItem : ∀ {d : Nat} {w : List Char}, IsItem d w → Balanced w
  | _, _, .char h => .char (not_isBracket_of_isPlain h) .nil
  | _, _, .group h => .group (balanced_of_isList h) .nil
theorem balanced_of_isList : ∀ {d : Nat} {w : List Char}, IsList d w → Balanced w
  | _, _, .last h => balanced_of_isExpression h
  | _, _, .more hu hv =>
    (balanced_of_isExpression hu).append (.char (by decide) (balanced_of_isList hv))
end

theorem Item.SpelledAll.balanced {d pos : Nat} {items : List Item} {w : List Char}
    (h : Item.SpelledAll d pos items w) : Balanced w := by
  rcases isExpression_of_spelledAll h with ⟨-, rfl⟩ | h
  · exact .nil
  · exact balanced_of_isExpression h

end Reckon
