import Mathlib
import Reckon.Formula.Offsets
import Reckon.Proofs.Bytes
import Reckon.Proofs.Raises

/-!
# Reading by bytes is reading by characters

What was read of some content is a start of it, whose length in bytes is an offset to cut at. Each
match adds a start of what is left (`Reading.bytePairs_eq`), so no cut fails and every offset in
bytes is turned into the one in characters (`Reading.ofBytes_eq`).
-/

namespace Reckon

variable {u rest text : List Char}

theorem Unary.toNat_le_length {g : Bool} {x : Operand} {w : List Char} (h : Unary g x w) :
    g.toNat ≤ w.length := by
  obtain ⟨a, v, rfl, ha, -⟩ := h.operand_at
  rw [List.length_append, ha]
  exact Nat.le_add_right _ _

theorem Step.behind_eq {s : Step} (h : s.offset ≤ rest.length) :
    s.behind (u ++ rest) rest (byteLength u) = .ok { s with offset := u.length + s.offset } := by
  have split : u ++ rest = (u ++ rest.take s.offset) ++ rest.drop s.offset := by
    rw [List.append_assoc, List.take_append_drop]
  rw [behind, ← byteLength_append, split, charOffset_append, List.length_append,
    List.length_take_of_le h]
  rfl

namespace Reading

theorem bytePairs_none {fuel : Nat}
    (hm : Form.binaryOperation.component.matchStart rest = none) :
    bytePairs (u ++ rest) (fuel + 1) (byteLength u) = .ok ⟨[], byteLength u⟩ := by
  rw [bytePairs, cutAt_append]
  split
  · simp only [bind, Except.bind, hm]
    rfl
  · rfl

theorem bytePairs_some {fuel : Nat} {c : Char} {m : Cursor} {s s' : Step} {later : Reading}
    (hm : Form.binaryOperation.component.matchStart (c :: rest) = some m)
    (hs : Step.ofBinaryMatch m (c :: rest) 0 = .ok s)
    (hs' : s.behind (u ++ c :: rest) (c :: rest) (byteLength u) = .ok s')
    (hlater : bytePairs (u ++ c :: rest) fuel (byteLength u + byteLength ((c :: rest).take m.pos)) =
      .ok later) :
    bytePairs (u ++ c :: rest) (fuel + 1) (byteLength u) = .ok ⟨s' :: later.steps, later.stop⟩ := by
  rw [bytePairs, if_pos (byteLength_lt_append u c rest), cutAt_append]
  simp only [bind, Except.bind, hm, hs, hs', hlater]
  rfl

theorem bytePairs_eq (hc : '\x7b' ∉ rest) (fuel : Nat) (u : List Char) :
    ∃ reading, pairs fuel rest u.length = .ok reading ∧ reading.stop ≤ (u ++ rest).length ∧
      bytePairs (u ++ rest) fuel (byteLength u) =
        .ok ⟨reading.steps, byteLength ((u ++ rest).take reading.stop)⟩ := by
  have here : (⟨[], u.length⟩ : Reading).stop ≤ (u ++ rest).length := by
    rw [List.length_append]
    exact Nat.le_add_right _ _
  induction fuel generalizing u rest with
  | zero => exact ⟨⟨[], u.length⟩, rfl, here, by rw [bytePairs, List.take_left]⟩
  | succ fuel ih =>
    rcases hm : Form.binaryOperation.component.matchStart rest with _ | m
    · refine ⟨⟨[], u.length⟩, pairs_none hm, here, ?_⟩
      rw [bytePairs_none hm, List.take_left]
    · obtain ⟨o, g, x, w, t, rfl, hpos, hl, hstep⟩ := Pairs.matchStart_some hc hm
      have htake : (o.symbol :: (w ++ t)).take m.pos = o.symbol :: w := by
        rw [hpos, Nat.add_comm, List.take_succ_cons, List.take_left]
      have hdrop : (o.symbol :: (w ++ t)).drop m.pos = t := by
        rw [hpos, Nat.add_comm, List.drop_succ_cons, List.drop_left]
      have hlength : (u ++ o.symbol :: w).length = u.length + m.pos := by
        rw [hpos, List.length_append, List.length_cons, Nat.add_comm 1]
      have hcontent : u ++ o.symbol :: (w ++ t) = (u ++ o.symbol :: w) ++ t := by simp
      obtain ⟨reading, hpairs, hle, hbytes⟩ := @ih t
        (fun h => hc (List.mem_cons_of_mem _ (List.mem_append_right _ h))) (u ++ o.symbol :: w)
        (by simp)
      rw [hlength] at hpairs
      rw [← hcontent] at hle hbytes
      have hoffset : (⟨some o, g, x, 0 + 1 + g.toNat⟩ : Step).offset ≤
          (o.symbol :: (w ++ t)).length := by
        have := hl.unary.toNat_le_length
        simp only [List.length_cons, List.length_append]
        omega
      refine ⟨_, pairs_some hm (hstep u.length) (hdrop.symm ▸ hpairs), hle, ?_⟩
      have hlater : byteLength u + byteLength ((o.symbol :: (w ++ t)).take m.pos) =
          byteLength (u ++ o.symbol :: w) := by rw [htake, byteLength_append]
      have hstep' := Step.behind_eq (u := u) hoffset
      rw [Nat.zero_add, ← Nat.add_assoc] at hstep'
      refine bytePairs_some hm (hstep 0) ?_ (hlater ▸ hbytes)
      rw [Nat.zero_add]
      exact hstep'

/-- Content that can be read is read the same by offsets in bytes. -/
theorem ofBytes_eq (hc : '\x7b' ∉ text) : ofBytes text = ofContent text := by
  rw [ofBytes, ofContent]
  rcases hm : Form.unaryOperation.component.matchStart text with _ | m
  · rfl
  · obtain ⟨g, x, w, t, rfl, hpos, hl, hstep⟩ := Unary.matchStart_some hc hm
    obtain ⟨reading, hpairs, hle, hbytes⟩ :=
      bytePairs_eq (fun h => hc (List.mem_append_right _ h)) (w ++ t).length w
    have hoffset : (⟨none, g, x, g.toNat⟩ : Step).offset ≤ (w ++ t).length := by
      have := hl.unary.toNat_le_length
      simp only [List.length_append]
      omega
    have hbehind := Step.behind_eq (u := []) hoffset
    rw [List.nil_append, byteLength_nil, List.length_nil, Nat.zero_add] at hbehind
    have hstop := charOffset_append ((w ++ t).take reading.stop) ((w ++ t).drop reading.stop)
    rw [List.take_append_drop, List.length_take_of_le hle] at hstop
    simp only [bind, Except.bind, hstep, hbehind, hpos, List.take_left, List.drop_left, hpairs,
      hbytes, hstop]
    rfl

end Reading

end Reckon
