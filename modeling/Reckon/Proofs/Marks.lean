import Mathlib
import Reckon.Proofs.Outcomes

/-!
# What the marks tell

A match is taken apart by what its groups captured. The marks of a pattern are those of its own
groups (`Pattern.Reads.index_mem`), so a match of a numbered group shows what that group read and
that the groups before it captured nothing (`Cursor.Shows.captured`). A pattern stands in others,
with groups open around it; `Cursor.Shows` says that a cursor has the marks of a pattern, whatever
was marked around it.
-/

namespace Reckon

open Pattern

def Mark.index : Mark → Nat
  | opened i | closed i => i

/-- The groups behind the first `n` are those that `ms` marks. -/
def Cursor.Shows (m : Cursor) (n : Nat) (ms : List (Mark × Nat)) : Prop :=
  ∀ i, n < i → m.group? i = (⟨[], 0, ms⟩ : Cursor).group? i

theorem lookup_eq_none_of_index {ms : List (Mark × Nat)} {a : Mark}
    (h : ∀ x ∈ ms, x.1.index ≠ a.index) : ms.lookup a = none := by
  refine List.lookup_eq_none_iff.mpr fun x hx => bne_iff_ne.mpr ?_
  rintro rfl
  exact h x hx rfl

/-! ### The marks of a pattern -/

namespace Pattern.Reads

variable {p : Pattern} {w : List Char} {n a k pos : Nat} {ms : List (Mark × Nat)}

theorem index_mem (h : Reads p w pos ms) : ∀ x ∈ ms, x.1.index ∈ p.groups := by
  induction h with
  | empty | set _ | stop | skip => exact nofun
  | cat _ _ ihp ihq =>
    intro x hx
    rcases List.mem_append.mp hx with hx | hx
    exacts [List.mem_append_right _ (ihq x hx), List.mem_append_left _ (ihp x hx)]
  | left _ ih => exact fun x hx => List.mem_append_left _ (ih x hx)
  | right _ ih => exact fun x hx => List.mem_append_right _ (ih x hx)
  | round _ _ _ ihp ihs =>
    intro x hx
    rcases List.mem_append.mp hx with hx | hx
    exacts [ihs x hx, ihp x hx]
  | plus _ ih => exact fun x hx => (List.mem_append.mp (ih x hx)).elim id id
  | take _ ih => exact ih
  | group _ ih =>
    intro x hx
    rcases List.mem_cons.mp hx with rfl | hx
    · exact List.mem_cons_self ..
    · rcases List.mem_append.mp hx with hx | hx
      · exact List.mem_cons_of_mem _ (ih x hx)
      · rw [List.mem_singleton.mp hx]
        exact List.mem_cons_self ..

/-- A pattern whose groups are `n + a` and the next ones marks no others. -/
theorem le_index (hg : p.groups = (List.range' a k).map (n + ·)) (h : Reads p w pos ms) :
    ∀ x ∈ ms, n + a ≤ x.1.index := by
  intro x hx
  obtain ⟨i, hi, hx⟩ := List.mem_map.mp (hg ▸ h.index_mem x hx)
  rw [← hx]
  exact Nat.add_le_add_left (List.mem_range'_1.mp hi).1 n

theorem lookup_eq_none (hg : p.groups = (List.range' a k).map (n + ·)) (h : Reads p w pos ms)
    {mark : Mark} (hm : mark.index < n + a) : ms.lookup mark = none :=
  lookup_eq_none_of_index fun x hx => (lt_of_lt_of_le hm (h.le_index hg x hx)).ne'

end Pattern.Reads

/-! ### What a cursor shows -/

namespace Cursor.Shows

variable {m : Cursor} {n a k pos : Nat} {p : Pattern} {w : List Char} {ms bs : List (Mark × Nat)}

theorem of_marks (h : m.marks = ms) (n : Nat) : m.Shows n ms := fun i _ => by
  rw [group?, group?, h]

/-- Within a group the marks of the group, and of those before it, do not matter. -/
theorem inside {start stop : Nat}
    (h : m.Shows n ((.closed k, stop) :: (ms ++ (.opened k, start) :: bs))) (hn : n ≤ k)
    (hbs : ∀ x ∈ bs, x.1.index ≤ k) : m.Shows k ms := by
  intro i hi
  have own {a : Mark} (ha : a.index = i) :
      List.lookup a ((.closed k, stop) :: (ms ++ (.opened k, start) :: bs)) = ms.lookup a := by
    have opened : a ≠ .opened k := by rintro rfl; exact hi.ne ha
    have closed : a ≠ .closed k := by rintro rfl; exact hi.ne ha
    have before : bs.lookup a = none :=
      lookup_eq_none_of_index fun x hx => ((hbs x hx).trans_lt (ha ▸ hi)).ne
    rw [lookup_cons_ite, if_neg closed, List.lookup_append, lookup_cons_ite, if_neg opened, before,
      Option.or_none]
  rw [h i (lt_of_le_of_lt hn hi), group?, group?, own (a := .opened i) rfl, own (a := .closed i) rfl]

/-- A match of a group shows what the group read and nothing for the groups before it. -/
theorem captured (hm : m.Shows n ms) (h : Reads (group (n + a) p) w pos ms) (ha : 0 < a)
    (hg : p.groups = (List.range' (a + 1) k).map (n + ·)) :
    m.group? (n + a) = some ⟨pos, pos + w.length⟩ ∧ ∀ i, 0 < i ∧ i < a → m.group? (n + i) = none := by
  obtain ⟨ns, h', rfl⟩ := reads_group_iff.mp h
  have early {i : Nat} (hi : i ≤ a) : ns.lookup (.opened (n + i)) = none :=
    h'.lookup_eq_none hg (show n + i < n + (a + 1) by omega)
  refine ⟨?_, fun i hi => ?_⟩
  · rw [hm _ (by omega)]
    simp [group?, lookup_cons_ite, List.lookup_append, early le_rfl]
  · rw [hm _ (by omega)]
    simp [group?, lookup_cons_ite, List.lookup_append, early hi.2.le, hi.2.ne]

end Cursor.Shows

end Reckon
