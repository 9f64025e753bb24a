import Mathlib
import Reckon.Proofs.Spelling
import Reckon.Tree.Scan

/-!
# The scan reads the grammar

`ofStripped_eq_ok_iff`: the scan answers with a tree exactly when the text spells it. Forward goes by
what the state of a scan knows of the text so far, `Scan.Holds`: the text is that of the open groups
(`Frames`) and then that of the draft. A group that is open has the draft before it, its bracket and
the expressions it already has, each with its comma (`Listed`). Each step keeps this
(`holds_step`).

Backward, a spelled tree is read from any state that has a place for it (`run_items` and its
companions): the open groups stay as they are, the draft gets the items.
-/

namespace Reckon

namespace Scan

variable {limit : Nat} {s s' : Scan} {position : Nat} {c : Char}

/-! ### What a step does -/

theorem step_plain (h : isPlain c) : s.step limit position c = s.plain position c := by
  obtain ⟨ho, hc, hs, _⟩ := isPlain_iff.mp h
  rw [step, if_neg hs, ho, hc]

theorem step_separator : s.step limit position separator = s.separate position := if_pos rfl

theorem step_opening (b : Bracket) :
    s.step limit position b.opening = s.openGroup limit position b := by
  cases b <;> rfl

theorem step_closing (b : Bracket) : s.step limit position b.closing = s.closeGroup position b := by
  cases b <;> rfl

theorem run_cons (cs : List Char) (h : s.step limit position c = .ok s') :
    run limit (c :: cs) position s = run limit cs (position + 1) s' := by
  rw [run, h]

theorem draft_some (d : Draft) (gs : List OpenGroup) :
    (⟨some d, gs⟩ : Scan).draft position = d := rfl

theorem append_eq {d : Draft} (h : d.stop = position) (i : Item) :
    d.append position i = .ok ⟨d.start, i.behind position, i :: d.items⟩ := if_pos h.symm

theorem plain_eq {d : Draft} (h : d.stop = position) (gs : List OpenGroup) :
    (⟨some d, gs⟩ : Scan).plain position c =
      .ok ⟨some ⟨d.start, position + 1, .char c :: d.items⟩, gs⟩ := by
  rw [plain, draft_some, append_eq h]
  rfl

theorem openGroup_eq {gs : List OpenGroup} (h : gs.length < limit) (d : Draft) (b : Bracket) :
    (⟨some d, gs⟩ : Scan).openGroup limit position b =
      .ok ⟨none, ⟨b, position, [], d⟩ :: gs⟩ := by
  rw [openGroup, if_neg (Nat.not_le.mpr h)]
  rfl

theorem separate_eq (d : Draft) (g : OpenGroup) (gs : List OpenGroup) :
    (⟨some d, g :: gs⟩ : Scan).separate position =
      .ok ⟨none, { g with children := d.finish :: g.children } :: gs⟩ := rfl

theorem closeGroup_eq {outer : Draft} {start : Nat} (h : outer.stop = start) (d : Draft) (b : Bracket)
    (es : List Expression) (gs : List OpenGroup) :
    (⟨some d, ⟨b, start, es, outer⟩ :: gs⟩ : Scan).closeGroup position b =
      .ok ⟨some ⟨outer.start, position + 1,
        .group (.mk b start position (d.finish :: es).reverse) :: outer.items⟩, gs⟩ := by
  simp only [closeGroup, if_true, append_eq h]
  rfl

/-- The draft with some more items, which end at `stop`. -/
def extend (d : Draft) (items : List Item) (stop : Nat) : Draft :=
  ⟨d.start, stop, items.reverse ++ d.items⟩

/-! ### A spelled tree is read -/

theorem step_none (hc : c ≠ separator) (ho : Bracket.ofClosing c = none) (gs : List OpenGroup) :
    (⟨none, gs⟩ : Scan).step limit position c = (⟨some (.new position), gs⟩ : Scan).step limit position c := by
  rw [step, step, if_neg hc, if_neg hc, ho]
  cases Bracket.ofOpening c <;> rfl

/-- The first item makes the draft. -/
theorem run_none {d pos : Nat} {items : List Item} {w : List Char} (h : Item.SpelledAll d pos items w)
    (hne : items ≠ []) (gs : List OpenGroup) (rest : List Char) :
    run limit (w ++ rest) pos ⟨none, gs⟩ = run limit (w ++ rest) pos ⟨some (.new pos), gs⟩ := by
  cases h with
  | nil => exact absurd rfl hne
  | char h hs =>
    obtain ⟨_, hc, hs, _⟩ := isPlain_iff.mp h
    rw [List.cons_append, run, run, step_none hs hc]
  | group h hs =>
    cases h with
    | @mk d _ b =>
      have hs : b.opening ≠ separator := by cases b <;> decide
      have hc : Bracket.ofClosing b.opening = none := by cases b <;> rfl
      rw [List.cons_append, List.cons_append, run, run, step_none hs hc]

mutual
theorem run_items : ∀ {d pos : Nat} {items : List Item} {w : List Char},
    Item.SpelledAll d pos items w → ∀ (draft : Draft) (gs : List OpenGroup) (rest : List Char),
      draft.stop = pos → gs.length + d = limit →
        run limit (w ++ rest) pos ⟨some draft, gs⟩ =
          run limit rest (pos + w.length) ⟨some (extend draft items (pos + w.length)), gs⟩
  | _, pos, _, _, .nil, draft, gs, rest, hd, _ => by
    obtain ⟨start, stop, is⟩ := draft
    obtain rfl : stop = pos := hd
    rfl
  | _, pos, _, _, .char (c := c) (w := w) h hs, draft, gs, rest, hd, hl => by
    have hstep : (⟨some draft, gs⟩ : Scan).step limit pos c =
        .ok ⟨some ⟨draft.start, pos + 1, .char c :: draft.items⟩, gs⟩ := by
      rw [step_plain h, plain_eq hd]
    rw [List.cons_append, run_cons _ hstep, run_items hs _ gs rest rfl hl, List.length_cons,
      Nat.add_right_comm, ← Nat.add_assoc]
    simp [extend]
  | _, pos, _, _, .group (g := g) (u := u) (w := w) h hs, draft, gs, rest, hd, hl => by
    rw [List.append_assoc, run_group h draft gs _ hd hl, run_items hs _ gs rest rfl hl,
      List.length_append, ← Nat.add_assoc]
    simp [extend]
theorem run_group : ∀ {d pos : Nat} {g : Group} {w : List Char},
    Group.Spelled d pos g w → ∀ (draft : Draft) (gs : List OpenGroup) (rest : List Char),
      draft.stop = pos → gs.length + d = limit →
        run limit (w ++ rest) pos ⟨some draft, gs⟩ =
          run limit rest (pos + w.length)
            ⟨some ⟨draft.start, pos + w.length, .group g :: draft.items⟩, gs⟩
  | _, _, _, _, @Group.Spelled.mk d pos b children w h, draft, gs, rest, hd, hl => by
    have opening : (⟨some draft, gs⟩ : Scan).step limit pos b.opening =
        .ok ⟨none, ⟨b, pos, [], draft⟩ :: gs⟩ := by
      rw [step_opening, openGroup_eq (by omega)]
    obtain ⟨last, before, hc, hrun⟩ := run_children h ⟨b, pos, [], draft⟩ gs (by omega)
    have hc : (last.finish :: before).reverse = children := hc
    have closing : (⟨some last, ⟨b, pos, before, draft⟩ :: gs⟩ : Scan).step limit
        (pos + 1 + w.length) b.closing = .ok ⟨some ⟨draft.start, pos + 1 + w.length + 1,
          .group (.mk b pos (pos + 1 + w.length) children) :: draft.items⟩, gs⟩ := by
      rw [step_closing, closeGroup_eq hd, hc]
    have length : pos + (b.opening :: (w ++ [b.closing])).length = pos + 1 + w.length + 1 := by
      simp only [List.length_cons, List.length_append, List.length_nil]
      omega
    rw [List.cons_append, List.append_assoc, run_cons _ opening, hrun, List.singleton_append,
      run_cons _ closing, length]
theorem run_children : ∀ {d pos : Nat} {es : List Expression} {w : List Char},
    Expression.SpelledAll d pos es w → ∀ (g : OpenGroup) (gs : List OpenGroup),
      gs.length + (d + 1) = limit → ∃ (last : Draft) (before : List Expression),
        (last.finish :: before).reverse = g.children.reverse ++ es ∧
        ∀ rest, run limit (w ++ rest) pos ⟨none, g :: gs⟩ =
          run limit rest (pos + w.length) ⟨some last, { g with children := before } :: gs⟩
  | _, pos, _, _, .last (w := w) h, g, gs, hl => by
    obtain ⟨last, hlast, hrun⟩ := run_expression h (g :: gs) (by rw [List.length_cons]; omega)
    exact ⟨last, g.children, by rw [hlast, List.reverse_cons], hrun⟩
  | _, pos, _, _, .more (e := e) (u := u) (v := v) h hs, g, gs, hl => by
    obtain ⟨draft, hdraft, hrun⟩ := run_expression h (g :: gs) (by rw [List.length_cons]; omega)
    obtain ⟨last, before, hc, hrest⟩ := run_children hs { g with children := e :: g.children } gs hl
    have comma : (⟨some draft, g :: gs⟩ : Scan).step limit (pos + u.length) separator =
        .ok ⟨none, { g with children := e :: g.children } :: gs⟩ := by
      rw [step_separator, separate_eq, hdraft]
    refine ⟨last, before, ?_, fun rest => ?_⟩
    · rw [hc, List.reverse_cons, List.append_assoc, List.singleton_append]
    · rw [List.append_assoc, hrun, List.cons_append, run_cons _ comma, hrest, List.length_append,
        List.length_cons, Nat.add_assoc, Nat.add_assoc, Nat.add_comm 1]
theorem run_expression : ∀ {d pos : Nat} {e : Expression} {w : List Char},
    Expression.Spelled d pos e w → ∀ (gs : List OpenGroup), gs.length + d = limit →
      ∃ draft : Draft, draft.finish = e ∧ ∀ rest, run limit (w ++ rest) pos ⟨none, gs⟩ =
        run limit rest (pos + w.length) ⟨some draft, gs⟩
  | _, _, _, _, @Expression.Spelled.mk d pos items w hne h, gs, hl => by
    refine ⟨extend (.new pos) items (pos + w.length), ?_, fun rest => ?_⟩
    · simp [extend, Draft.finish, Draft.new]
    · rw [run_none h hne]
      exact run_items h (.new pos) gs rest rfl hl
end

/-! ### What was read spells a tree -/

/-- Expressions of an open group, each with the comma behind it. -/
inductive Listed (d : Nat) : Nat → List Expression → List Char → Prop
  | nil {pos : Nat} : Listed d pos [] []
  | cons {pos : Nat} {e : Expression} {es : List Expression} {u v : List Char}
      (h : Expression.Spelled d pos e u) (hs : Listed d (pos + u.length + 1) es v) :
      Listed d pos (e :: es) (u ++ separator :: v)

theorem Listed.concat {d pos : Nat} {e : Expression} {es : List Expression} {u v : List Char}
    (hs : Listed d pos es v) (h : Expression.Spelled d (pos + v.length) e u) :
    Listed d pos (es ++ [e]) (v ++ (u ++ [separator])) := by
  induction hs with
  | nil => exact .cons h .nil
  | cons h' hs ih =>
    rw [length_comma] at h
    rw [List.append_assoc]
    exact .cons h' (ih h)

/-- With a last expression, which has no comma, the list is complete. -/
theorem Listed.close {d pos : Nat} {e : Expression} {es : List Expression} {u v : List Char}
    (hs : Listed d pos es v) (h : Expression.Spelled d (pos + v.length) e u) :
    Expression.SpelledAll d pos (es ++ [e]) (v ++ u) := by
  induction hs with
  | nil => exact .last h
  | cons h' hs ih =>
    rw [length_comma] at h
    rw [List.append_assoc]
    exact .more h' (ih h)

/-- The draft was read from `u`, behind `pos` characters. -/
structure Drafted (d pos : Nat) (draft : Draft) (u : List Char) : Prop where
  start : draft.start = pos
  stop : draft.stop = pos + u.length
  items : Item.SpelledAll d pos draft.items.reverse u

/-- The text before the innermost level: for each open group the draft around it, its bracket and
the expressions it already has. -/
inductive Frames (limit : Nat) : List OpenGroup → List Char → Prop
  | nil : Frames limit [] []
  | cons {d : Nat} {g : OpenGroup} {gs : List OpenGroup} {w u v : List Char} (hf : Frames limit gs w)
      (hl : gs.length + (d + 1) = limit) (outer : Drafted (d + 1) w.length g.outer u)
      (start : g.start = w.length + u.length)
      (children : Listed d (g.start + 1) g.children.reverse v) :
      Frames limit (g :: gs) (w ++ (u ++ g.bracket.opening :: v))

/-- The innermost level has no draft, or one with an item. -/
def Held (d pos : Nat) : Option Draft → List Char → Prop
  | none, u => u = []
  | some draft, u => Drafted d pos draft u ∧ draft.items ≠ []

/-- The state was reached by reading `w`. -/
def Holds (limit : Nat) (s : Scan) (w : List Char) : Prop :=
  ∃ d v u, w = v ++ u ∧ Frames limit s.opened v ∧ s.opened.length + d = limit ∧
    Held d v.length s.current u

theorem Held.drafted {d pos : Nat} {current : Option Draft} {u : List Char}
    (h : Held d pos current u) (gs : List OpenGroup) :
    Drafted d pos ((⟨current, gs⟩ : Scan).draft (pos + u.length)) u := by
  cases current with
  | none =>
    obtain rfl : u = [] := h
    exact ⟨rfl, rfl, .nil⟩
  | some draft => exact h.1

theorem Drafted.append {d pos stop : Nat} {draft : Draft} {i : Item} {u v : List Char}
    (h : Drafted d pos draft u) (hi : Item.SpelledAll d (pos + u.length) [i] v)
    (hstop : stop = pos + u.length + v.length) :
    Drafted d pos ⟨draft.start, stop, i :: draft.items⟩ (u ++ v) := by
  refine ⟨h.start, ?_, ?_⟩
  · rw [hstop, List.length_append, Nat.add_assoc]
  · rw [List.reverse_cons]
    exact h.items.append hi

theorem Drafted.spelled {d pos : Nat} {draft : Draft} {u : List Char} (h : Drafted d pos draft u)
    (hne : draft.items ≠ []) : Expression.Spelled d pos draft.finish u := by
  rw [Draft.finish, h.start, h.stop]
  exact .mk (mt List.reverse_eq_nil_iff.mp hne) h.items

theorem holds_start : Holds limit start [] :=
  ⟨limit, [], [], rfl, .nil, Nat.zero_add limit, rfl⟩

theorem holds_plain {w : List Char} (h : Holds limit s w) (hc : isPlain c)
    (hs : s.plain w.length c = .ok s') : Holds limit s' (w ++ [c]) := by
  obtain ⟨current, gs⟩ := s
  obtain ⟨d, v, u, rfl, hf, hl, hu⟩ := h
  have hd := hu.drafted gs
  rw [List.length_append, plain, append_eq hd.stop] at hs
  obtain rfl := Except.ok.inj hs
  refine ⟨d, v, u ++ [c], List.append_assoc v u [c], hf, hl, ?_, List.cons_ne_nil _ _⟩
  exact hd.append (.char hc .nil) rfl

theorem holds_openGroup {w : List Char} {b : Bracket} (h : Holds limit s w)
    (hs : s.openGroup limit w.length b = .ok s') : Holds limit s' (w ++ [b.opening]) := by
  obtain ⟨current, gs⟩ := s
  obtain ⟨d, v, u, rfl, hf, hl, hu⟩ := h
  have hd := hu.drafted gs
  rw [openGroup] at hs
  split at hs
  · cases hs
  · next hlt =>
    obtain rfl := Except.ok.inj hs
    rw [List.length_append] at *
    have hlt : gs.length < limit := Nat.not_le.mp hlt
    obtain ⟨d, rfl⟩ : ∃ e, d = e + 1 := ⟨d - 1, by simp only at hl; omega⟩
    refine ⟨d, v ++ (u ++ [b.opening]), [], by simp, .cons hf hl hd rfl .nil, ?_, rfl⟩
    simp only [List.length_cons] at hl ⊢
    omega

/-- The position behind the text of the open groups. -/
theorem length_frame {start : Nat} {b : Bracket} {w u v : List Char} (h : start = w.length + u.length) :
    (w ++ (u ++ b.opening :: v)).length = start + 1 + v.length := by
  simp only [List.length_append, List.length_cons, h]
  omega

theorem holds_separate {w : List Char} (h : Holds limit s w) (hs : s.separate w.length = .ok s') :
    Holds limit s' (w ++ [separator]) := by
  obtain ⟨current, gs⟩ := s
  obtain ⟨d, v, u, rfl, hf, hl, hu⟩ := h
  cases current with
  | none => cases hs
  | some draft =>
    cases hf with
    | nil => cases hs
    | @cons d' g gs w₀ u₀ v₀ hf hl' outer start children =>
      rw [separate_eq] at hs
      obtain rfl := Except.ok.inj hs
      obtain rfl : d = d' := by simp only [List.length_cons] at hl; omega
      have hsp := hu.1.spelled hu.2
      rw [length_frame start] at hsp
      refine ⟨d, _, [], ?_, .cons (g := { g with children := draft.finish :: g.children }) hf hl' outer
        start (v := v₀ ++ (u ++ [separator])) ?_, hl, rfl⟩
      · simp
      · rw [List.reverse_cons]
        exact children.concat hsp

/-- With its last expression a group is complete, and an item of the draft around it. -/
theorem Drafted.close {d pos start : Nat} {draft : Draft} {b : Bracket} {e : Expression}
    {es : List Expression} {u v w : List Char} (outer : Drafted (d + 1) pos draft u)
    (hstart : start = pos + u.length) (children : Listed d (start + 1) es.reverse v)
    (h : Expression.Spelled d (start + 1 + v.length) e w) :
    Drafted (d + 1) pos ⟨draft.start, start + 1 + (v ++ w).length + 1,
        .group (.mk b start (start + 1 + (v ++ w).length) (e :: es).reverse) :: draft.items⟩
      (u ++ b.opening :: ((v ++ w) ++ [b.closing])) := by
  have group := Group.Spelled.mk (b := b) (children.close h)
  rw [← List.reverse_cons] at group
  refine outer.append (.single (hstart ▸ group)) ?_
  simp only [List.length_append, List.length_cons, List.length_nil]
  omega

theorem holds_closeGroup {w : List Char} {b : Bracket} (h : Holds limit s w)
    (hs : s.closeGroup w.length b = .ok s') : Holds limit s' (w ++ [b.closing]) := by
  obtain ⟨current, gs⟩ := s
  obtain ⟨d, v, u, rfl, hf, hl, hu⟩ := h
  cases current with
  | none => cases hs
  | some draft =>
    cases hf with
    | nil => cases hs
    | @cons d' g gs w₀ u₀ v₀ hf hl' outer start children =>
      obtain ⟨b', start', es, draft'⟩ := g
      simp only at outer start children hu
      obtain rfl : d = d' := by simp only [List.length_cons] at hl; omega
      by_cases hb : b' = b
      · subst hb
        have hstop : draft'.stop = start' := outer.stop.trans start.symm
        rw [closeGroup_eq hstop] at hs
        obtain rfl := Except.ok.inj hs
        have hsp := hu.1.spelled hu.2
        rw [length_frame start] at hsp
        have hlast : (w₀ ++ (u₀ ++ b'.opening :: v₀) ++ u).length =
            start' + 1 + (v₀ ++ u).length := by
          rw [List.length_append, length_frame start, List.length_append, Nat.add_assoc]
        rw [hlast]
        exact ⟨d + 1, w₀, u₀ ++ b'.opening :: ((v₀ ++ u) ++ [b'.closing]), by simp, hf, hl',
          outer.close start children hsp, List.cons_ne_nil _ _⟩
      · simp [closeGroup, hb] at hs

/-- Each step keeps what the state knows of the text. The placeholder is not part of a text. -/
theorem holds_step {w : List Char} (h : Holds limit s w) (hc : c ≠ placeholder)
    (hs : s.step limit w.length c = .ok s') : Holds limit s' (w ++ [c]) := by
  rcases char_cases c with hp | rfl | rfl | ⟨b, rfl⟩ | ⟨b, rfl⟩
  · exact holds_plain h hp (step_plain hp ▸ hs)
  · exact absurd rfl hc
  · exact holds_separate h (step_separator ▸ hs)
  · exact holds_openGroup h (step_opening b ▸ hs)
  · exact holds_closeGroup h (step_closing b ▸ hs)

theorem holds_run {w cs : List Char} (h : Holds limit s w) (hcs : placeholder ∉ cs)
    (hs : run limit cs w.length s = .ok s') : Holds limit s' (w ++ cs) := by
  induction cs generalizing w s with
  | nil =>
    obtain rfl : s = s' := Except.ok.inj hs
    rwa [List.append_nil]
  | cons c cs ih =>
    rw [run] at hs
    split at hs
    · cases hs
    · next s₁ h₁ =>
      obtain ⟨hne, hcs⟩ := not_or.mp (mt List.mem_cons.mpr hcs)
      have := holds_step h (Ne.symm hne) h₁
      rw [List.append_cons]
      exact ih this hcs (by rwa [List.length_append])

theorem finish_eq_ok {n : Nat} {e : Expression} (h : s.finish n = .ok e) :
    s.opened = [] ∧ ∃ d, s.current = some d ∧ d.finish = e := by
  obtain ⟨current, gs⟩ := s
  cases gs with
  | cons g gs => cases h
  | nil =>
    cases current with
    | none => cases h
    | some d => exact ⟨rfl, d, rfl, Except.ok.inj h⟩

end Scan

/-- The scan answers with the tree that the text spells, if it spells one. -/
theorem Expression.ofStripped_eq_ok_iff {limit : Nat} {cs : List Char} {e : Expression}
    (hcs : placeholder ∉ cs) : ofStripped limit cs = .ok e ↔ Spelled limit 0 e cs := by
  rw [ofStripped]
  constructor
  · intro h
    split at h
    · cases h
    · next s hrun =>
      obtain ⟨hopened, draft, hcurrent, rfl⟩ := Scan.finish_eq_ok h
      obtain ⟨d, v, u, huv, hf, hl, hu⟩ := Scan.holds_run (w := []) Scan.holds_start hcs hrun
      rw [hopened] at hf hl
      rw [hcurrent] at hu
      cases hf
      obtain rfl : limit = d := by simpa using hl.symm
      rw [List.nil_append, List.nil_append] at huv
      exact huv ▸ hu.1.spelled hu.2
  · intro h
    obtain ⟨draft, rfl, hrun⟩ := Scan.run_expression h [] (Nat.zero_add limit)
    have := hrun []
    rw [List.append_nil] at this
    rw [show Scan.start = ⟨none, []⟩ from rfl, this]
    rfl

end Reckon
