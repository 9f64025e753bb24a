import Mathlib
import Reckon.Text.Bytes

/-!
# Cuts between characters

A text is cut in two exactly at the lengths of its starts (`cutAt_eq_ok_iff`), so an offset that is
the length of what was read so far is always one to cut at.
-/

namespace Reckon

variable {u v w text : List Char} {n : Nat}

@[simp] theorem byteLength_nil : byteLength [] = 0 := rfl

@[simp] theorem byteLength_cons (c : Char) (cs : List Char) :
    byteLength (c :: cs) = c.utf8Size + byteLength cs := rfl

@[simp] theorem byteLength_append (u v : List Char) :
    byteLength (u ++ v) = byteLength u + byteLength v := by
  induction u with
  | nil => rw [List.nil_append, byteLength_nil, Nat.zero_add]
  | cons c u ih => rw [List.cons_append, byteLength_cons, byteLength_cons, ih, Nat.add_assoc]

theorem byteLength_lt_append (u : List Char) (c : Char) (v : List Char) :
    byteLength u < byteLength (u ++ c :: v) := by
  have := c.utf8Size_pos
  rw [byteLength_append, byteLength_cons]
  omega

/-! ### Cuts -/

theorem cutBytes_eq_some_iff :
    cutBytes text n = some (u, v) ↔ text = u ++ v ∧ byteLength u = n := by
  induction text, n using cutBytes.induct generalizing u v with
  | case1 text =>
    rw [cutBytes, Option.some.injEq, Prod.mk.injEq]
    constructor
    · rintro ⟨rfl, rfl⟩
      exact ⟨rfl, rfl⟩
    · rintro ⟨rfl, h⟩
      rcases u with _ | ⟨c, u⟩
      · exact ⟨rfl, rfl⟩
      · have := c.utf8Size_pos
        rw [byteLength_cons] at h
        omega
  | case2 n =>
    rw [cutBytes]
    constructor
    · exact nofun
    · rintro ⟨h, hn⟩
      obtain ⟨rfl, -⟩ := List.append_eq_nil_iff.mp h.symm
      cases hn
  | case3 c cs n hle ih =>
    rw [cutBytes, if_pos hle]
    constructor
    · intro h
      obtain ⟨⟨u', v'⟩, h', hp⟩ := Option.map_eq_some_iff.mp h
      obtain ⟨rfl, rfl⟩ := Prod.mk.inj hp
      obtain ⟨rfl, hn⟩ := ih.mp h'
      refine ⟨rfl, ?_⟩
      change byteLength (c :: u') = n + 1
      rw [byteLength_cons]
      omega
    · rintro ⟨h, hn⟩
      rcases u with _ | ⟨d, u⟩
      · cases hn
      · obtain ⟨rfl, rfl⟩ := List.cons.inj h
        rw [byteLength_cons] at hn
        rw [ih.mpr ⟨rfl, by omega⟩]
        rfl
  | case4 c cs n hlt =>
    rw [cutBytes, if_neg hlt]
    constructor
    · exact nofun
    · rintro ⟨h, hn⟩
      rcases u with _ | ⟨d, u⟩
      · cases hn
      · obtain ⟨rfl, -⟩ := List.cons.inj h
        rw [byteLength_cons] at hn
        omega

/-- A cut is possible where a start of the text ends, and nowhere else. -/
theorem cutAt_eq_ok_iff : cutAt text n = .ok (u, v) ↔ text = u ++ v ∧ byteLength u = n := by
  rw [← cutBytes_eq_some_iff, cutAt]
  cases cutBytes text n with
  | none => exact ⟨nofun, nofun⟩
  | some p => rw [Except.ok.injEq, Option.some.injEq]

theorem cutAt_append (u v : List Char) : cutAt (u ++ v) (byteLength u) = .ok (u, v) :=
  cutAt_eq_ok_iff.mpr ⟨rfl, rfl⟩

theorem sliceBytes_append (u w v : List Char) :
    sliceBytes (u ++ (w ++ v)) (byteLength u) (byteLength (u ++ w)) = .ok w := by
  rw [sliceBytes, ← List.append_assoc, cutAt_append]
  show (cutAt (u ++ w) (byteLength u) >>= fun p => pure p.2) = _
  rw [cutAt_append]
  rfl

example : sliceBytes ['é', 'x', 'y'] 2 3 = .ok ['x'] := by rfl

example : sliceBytes ['é', 'x', 'y'] 1 3 = .error (.splitCharacter 1) := by rfl

theorem charOffset_append (u v : List Char) :
    charOffset (u ++ v) (byteLength u) = .ok u.length := by
  rw [charOffset, cutAt_append]
  rfl

end Reckon
