import Mathlib
import Reckon.Tree.Spelling

/-!
# Texts and trees of the grammar

A text of the grammar spells a tree at any position (`exists_spelled`), and what spells a tree is a
text of the grammar (`isExpression_of_spelled`). Items are put behind each other by
`Item.SpelledAll.append`.
-/

namespace Reckon

open Spelling

/-! ### Characters -/

theorem ofOpening_eq_some {c : Char} {b : Bracket} (h : Bracket.ofOpening c = some b) :
    c = b.opening := by
  rw [Bracket.ofOpening] at h
  have := List.find?_some h
  rw [decide_eq_true_eq] at this
  exact this.symm

theorem ofClosing_eq_some {c : Char} {b : Bracket} (h : Bracket.ofClosing c = some b) :
    c = b.closing := by
  rw [Bracket.ofClosing] at h
  have := List.find?_some h
  rw [decide_eq_true_eq] at this
  exact this.symm

theorem isPlain_iff {c : Char} : isPlain c ↔ Bracket.ofOpening c = none ∧ Bracket.ofClosing c = none ∧
    c ≠ separator ∧ c ≠ placeholder := by
  simp only [isPlain, Bool.and_eq_true, Option.isNone_iff_eq_none, bne_iff_ne]
  tauto

theorem char_cases (c : Char) : isPlain c ∨ c = placeholder ∨ c = separator ∨
    (∃ b : Bracket, c = b.opening) ∨ ∃ b : Bracket, c = b.closing := by
  rw [isPlain_iff]
  by_cases hp : c = placeholder
  · exact .inr (.inl hp)
  by_cases hs : c = separator
  · exact .inr (.inr (.inl hs))
  cases ho : Bracket.ofOpening c with
  | some b => exact .inr (.inr (.inr (.inl ⟨b, ofOpening_eq_some ho⟩)))
  | none =>
    cases hc : Bracket.ofClosing c with
    | some b => exact .inr (.inr (.inr (.inr ⟨b, ofClosing_eq_some hc⟩)))
    | none => exact .inl ⟨rfl, rfl, hs, hp⟩

/-! ### Runs of items -/

theorem Item.SpelledAll.append {d : Nat} : ∀ {pos : Nat} {is js : List Item} {u v : List Char},
    Item.SpelledAll d pos is u → Item.SpelledAll d (pos + u.length) js v →
      Item.SpelledAll d pos (is ++ js) (u ++ v)
  | _, _, _, _, _, .nil, hv => hv
  | pos, _, _, _, _, .char (w := w) h hs, hv => by
    refine .char h (hs.append ?_)
    rwa [List.length_cons, Nat.add_comm w.length, ← Nat.add_assoc] at hv
  | pos, _, _, _, _, .group (u := u) (w := w) h hs, hv => by
    rw [List.append_assoc]
    refine .group h (hs.append ?_)
    rwa [List.length_append, ← Nat.add_assoc] at hv

theorem Item.SpelledAll.single {d pos : Nat} {g : Group} {u : List Char}
    (h : Group.Spelled d pos g u) : Item.SpelledAll d pos [.group g] u :=
  List.append_nil u ▸ .group h .nil

theorem length_comma (pos : Nat) (u v : List Char) :
    pos + (u ++ separator :: v).length = pos + u.length + 1 + v.length := by
  rw [List.length_append, List.length_cons]
  omega

theorem Expression.SpelledAll.ne_nil {d pos : Nat} {es : List Expression} {w : List Char}
    (h : Expression.SpelledAll d pos es w) : es ≠ [] := by
  cases h <;> exact List.cons_ne_nil _ _

/-! ### From a text to its tree -/

mutual
theorem exists_spelledAll : ∀ {d : Nat} {w : List Char}, IsExpression d w → ∀ pos : Nat,
    ∃ items, items ≠ [] ∧ Item.SpelledAll d pos items w
  | _, _, .last h, pos => by
    obtain ⟨i, hi⟩ := exists_spelledItem h pos
    exact ⟨[i], List.cons_ne_nil _ _, hi⟩
  | _, _, .more (u := u) hu hv, pos => by
    obtain ⟨i, hi⟩ := exists_spelledItem hu pos
    obtain ⟨items, _, hs⟩ := exists_spelledAll hv (pos + u.length)
    exact ⟨i :: items, List.cons_ne_nil _ _, hi.append hs⟩
theorem exists_spelledItem : ∀ {d : Nat} {w : List Char}, IsItem d w → ∀ pos : Nat,
    ∃ i, Item.SpelledAll d pos [i] w
  | _, _, .char (c := c) h, pos => ⟨.char c, .char h .nil⟩
  | _, _, .group h, pos => by
    obtain ⟨es, hs⟩ := exists_spelledList h (pos + 1)
    exact ⟨_, .single (.mk hs)⟩
theorem exists_spelledList : ∀ {d : Nat} {w : List Char}, IsList d w → ∀ pos : Nat,
    ∃ es, Expression.SpelledAll d pos es w
  | _, _, .last h, pos => by
    obtain ⟨items, hne, hs⟩ := exists_spelledAll h pos
    exact ⟨_, .last (.mk hne hs)⟩
  | _, _, .more (u := u) hu hv, pos => by
    obtain ⟨items, hne, hs⟩ := exists_spelledAll hu pos
    obtain ⟨es, hes⟩ := exists_spelledList hv (pos + u.length + 1)
    exact ⟨_, .more (.mk hne hs) hes⟩
end

theorem exists_spelled {d : Nat} {w : List Char} (h : IsExpression d w) (pos : Nat) :
    ∃ e, Expression.Spelled d pos e w := by
  obtain ⟨items, hne, hs⟩ := exists_spelledAll h pos
  exact ⟨_, .mk hne hs⟩

/-! ### From a tree to its text -/

mutual
theorem isExpression_of_spelled : ∀ {d pos : Nat} {e : Expression} {w : List Char},
    Expression.Spelled d pos e w → IsExpression d w
  | _, _, _, _, .mk hne h => (isExpression_of_spelledAll h).resolve_left fun h => hne h.1
theorem isExpression_of_spelledAll : ∀ {d pos : Nat} {items : List Item} {w : List Char},
    Item.SpelledAll d pos items w → (items = [] ∧ w = []) ∨ IsExpression d w
  | _, _, _, _, .nil => .inl ⟨rfl, rfl⟩
  | _, _, _, _, .char (c := c) h hs => by
    rcases isExpression_of_spelledAll hs with ⟨-, rfl⟩ | hv
    · exact .inr (.last (.char h))
    · exact .inr (.more (u := [c]) (.char h) hv)
  | _, _, _, _, .group (u := u) h hs => by
    rcases isExpression_of_spelledAll hs with ⟨-, rfl⟩ | hv
    · exact .inr ((List.append_nil u).symm ▸ .last (isItem_of_spelled h))
    · exact .inr (.more (isItem_of_spelled h) hv)
theorem isItem_of_spelled : ∀ {d pos : Nat} {g : Group} {w : List Char},
    Group.Spelled d pos g w → IsItem d w
  | _, _, _, _, .mk h => .group (isList_of_spelledAll h)
theorem isList_of_spelledAll : ∀ {d pos : Nat} {es : List Expression} {w : List Char},
    Expression.SpelledAll d pos es w → IsList d w
  | _, _, _, _, .last h => .last (isExpression_of_spelled h)
  | _, _, _, _, .more h hs => .more (isExpression_of_spelled h) (isList_of_spelledAll hs)
end

/-! ### The placeholder -/

theorem placeholder_ne_opening (b : Bracket) : placeholder ≠ b.opening := by cases b <;> decide

theorem placeholder_ne_closing (b : Bracket) : placeholder ≠ b.closing := by cases b <;> decide

mutual
theorem placeholder_not_mem : ∀ {d : Nat} {w : List Char}, IsExpression d w → placeholder ∉ w
  | _, _, .last h => placeholder_not_mem_item h
  | _, _, .more hu hv => by
    rw [List.mem_append]
    exact not_or.mpr ⟨placeholder_not_mem_item hu, placeholder_not_mem hv⟩
theorem placeholder_not_mem_item : ∀ {d : Nat} {w : List Char}, IsItem d w → placeholder ∉ w
  | _, _, .char h => by
    rw [List.mem_singleton]
    exact fun e => (isPlain_iff.mp h).2.2.2 e.symm
  | _, _, .group (b := b) h => by
    simp only [List.mem_cons, List.mem_append, List.not_mem_nil, or_false, not_or]
    exact ⟨placeholder_ne_opening b, placeholder_not_mem_list h, placeholder_ne_closing b⟩
theorem placeholder_not_mem_list : ∀ {d : Nat} {w : List Char}, IsList d w → placeholder ∉ w
  | _, _, .last h => placeholder_not_mem h
  | _, _, .more hu hv => by
    simp only [List.mem_append, List.mem_cons, not_or]
    exact ⟨placeholder_not_mem hu, by decide, placeholder_not_mem_list hv⟩
end

end Reckon
