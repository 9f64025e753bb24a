import Mathlib
import Reckon.Proofs.Culprit
import Reckon.Proofs.Nodes
import Reckon.Proofs.Offsets
import Reckon.Proofs.Raises
import Reckon.Proofs.Shape
import Reckon.Proofs.Tokens

/-!
# No input leads to a defect

A defect stands for a state that no stage should meet: a node that is extended at the wrong place or
after its end, a group without expressions, a placeholder without a group, an operand that matched
without a form, a cut inside of a character. None of them arises on the way from a text to a value:

* an arena is built token by token as its tree is read character by character, and the causes for
  which there is no tree are none of these (`ParseFault.Blames`);
* the node of an expression names its groups in the order of the placeholders, so each offset of each
  expression has a position in the arena, the one it has in the tree (`Tree.arena_realPosition`);
* content is read alike by bytes and by characters, and its steps have the groups they ask for
  (`Expression.Marked.readable`). If all of it is read, they take every group of the expression
  once, in order (`Resolver.Consumes`).
-/

namespace Reckon

/-! ### Positions in an arena -/

namespace Arena

variable {a : Arena} {id : Nat} {js : List Nat} {x : Expression} {items : List Item}

theorem behind_cons_of_ne {c : Char} (hc : c ≠ placeholder) (cs : List Char) (position : Nat) :
    a.behind (c :: cs) js position = a.behind cs js (position + 1) := by
  cases js <;> simp only [behind, if_neg hc]

/-- Behind some items is where the tree says, if they start the ones whose groups are at `js`. -/
theorem behind_eq {more : List Item} (hm : ∀ c, Item.char c ∈ items → isPlain c)
    (h : List.Forall₂ a.HasGroup js ((items ++ more).filterMap Item.group?)) (position : Nat) :
    a.behind (items.map Item.mark) js position = .ok (items.foldl Item.behind position) := by
  induction items generalizing js position with
  | nil => rfl
  | cons i items ih =>
    have later (c : Char) (hc : Item.char c ∈ items) : isPlain c := hm c (List.mem_cons_of_mem i hc)
    cases i with
    | char c =>
      have hc : c ≠ placeholder := (isPlain_iff.mp (hm c List.mem_cons_self)).2.2.2
      rw [List.map_cons, Item.mark, behind_cons_of_ne hc]
      exact ih later h _
    | group g =>
      cases h with
      | cons here there =>
        obtain ⟨_, hnode, -⟩ := here.node
        rw [List.map_cons, Item.mark, behind, if_pos rfl]
        simp only [hnode]
        exact ih later there _

/-- At the place of an expression the positions are those in the tree. -/
theorem HasExpression.realPosition (h : a.HasExpression id x) (hm : x.Marked) (offset : Nat) :
    a.realPosition id offset = .ok (x.realPosition offset) := by
  obtain ⟨js, hnode, groups⟩ := h.node
  rw [Expression.groups, ← List.take_append_drop offset x.items] at groups
  have plain (c : Char) (hc : Item.char c ∈ x.items.take offset) : isPlain c :=
    hm c (List.mem_of_mem_take hc)
  rw [Arena.realPosition, hnode]
  simp only [ExpressionRow.node, Expression.content, ← List.map_take]
  exact behind_eq plain groups x.start

end Arena

namespace Tree

/-- The numbers of the arena are those of the expressions of the tree, with the same positions. -/
theorem arena_realPosition {t : Tree} (hm : ∀ e, t.root.Inside e → e.Marked) :
    (∀ id < t.arena.expressions.length, ∃ e, t.root.Inside e ∧
      ∀ offset, t.arena.realPosition id offset = .ok (e.realPosition offset)) ∧
    ∀ e, t.root.Inside e → ∃ id < t.arena.expressions.length,
      ∀ offset, t.arena.realPosition id offset = .ok (e.realPosition offset) := by
  constructor
  · intro id hid
    obtain ⟨e, inside, he⟩ := exists_expression (List.getElem?_eq_getElem hid)
    exact ⟨e, inside, he.realPosition (hm e inside)⟩
  · intro e inside
    obtain ⟨id, he⟩ := t.arena_hasExpression.of_inside inside
    obtain ⟨_, hnode, -⟩ := he.node
    obtain ⟨hid, -⟩ := List.getElem?_eq_some_iff.mp hnode
    exact ⟨id, hid, he.realPosition (hm e inside)⟩

end Tree

/-! ### Content -/

/-- The content is read without a defect, by offsets in bytes or in characters, and each step has
the groups it asks for. -/
def Expression.Readable (e : Expression) : Prop :=
  ∃ reading, Reading.ofBytes e.content = .ok reading ∧ Reading.ofContent e.content = .ok reading ∧
    ∀ r ∈ reading, ∀ s ∈ r.steps, s.Counted e

theorem Expression.Marked.readable {e : Expression} (hm : e.Marked) : e.Readable := by
  have bytes := Reading.ofBytes_eq hm.brace_not_mem
  rcases Reading.ofContent_spec hm.brace_not_mem with ⟨hr, -⟩ | ⟨steps, w, hf, hr⟩
  · exact ⟨none, bytes.trans hr, hr, nofun⟩
  · obtain ⟨t, ht⟩ := hf.split
    obtain ⟨is, js, hs, hi, -⟩ := List.map_eq_append_iff.mp ht
    obtain ⟨-, hcount⟩ := hf.reads.groups_eq hm hs hi
    refine ⟨some ⟨steps, w.length⟩, bytes.trans hr, hr, fun r hr => ?_⟩
    obtain rfl := Option.some.inj hr
    exact hcount

namespace Resolver

variable {r : Resolver} {e : Expression} {f : Formula}

/-- The steps of the content take every group of the expression once, in order, and leave none. -/
structure Consumes (r : Resolver) (e : Expression) (steps : List Step) (f : Formula) : Prop where
  reading : Reading.ofBytes e.content = .ok (some ⟨steps, e.content.length⟩)
  groups : steps.flatMap (Step.groups · e) = e.groups
  gives : r.GivesAll steps e.groups f
  elements : r.elements e (e.groups.map r.resolved) steps = .ok (f, [])

theorem consumes_of_resolve (hm : e.Marked) (h : r.resolve e = .ok f) :
    ∃ steps, r.Consumes e steps f := by
  obtain ⟨steps, gs, left, hc, hgroups, hall⟩ := (resolve_eq_ok_iff hm).mp h
  obtain ⟨hflat, hcount⟩ := hc.groups_eq hm (List.append_nil _).symm rfl
  -- the steps ask for as many groups as there are, so that they leave none of them
  have hlength : gs.length = e.groups.length := by
    rw [hall.length_eq, ← length_flatMap_groups hcount, hflat]
    rfl
  obtain rfl : left = [] := by
    rw [hgroups, List.length_append] at hlength
    exact List.length_eq_zero_iff.mp (by omega)
  rw [List.append_nil] at hgroups
  subst hgroups
  have reads := ((ofContent_eq_iff hm).mpr ⟨hc, rfl⟩).1
  have elements := hall.elements_eq e []
  rw [List.append_nil] at elements
  exact ⟨steps, (Reading.ofBytes_eq hm.brace_not_mem).trans reads, hflat, hall, elements⟩

/-- A defect is an answer of the reader of numbers. -/
theorem numbers_of_defect {d : Defect} (hs : ∃ depth pos w, Expression.Spelled depth pos e w)
    (h : r.resolve e = .error (.defect d)) : ∃ entries, r.numbers entries = .error (.defect d) := by
  obtain ⟨e', -, hraises⟩ := resolve_eq_error hs h
  exact hraises.numbers_of_defect

end Resolver

/-! ### Inputs -/

theorem Tree.ofRaw_ne_defect {settings : Settings} {raw : String} {report : Report ParseFault}
    (h : ofRaw settings raw = .error report) (d : Defect) : report.cause ≠ .defect d := by
  rcases ofRaw_eq_error h with rfl | ⟨text, fault, -, hblames, rfl⟩
  · exact nofun
  · show fault ≠ _
    rintro rfl
    cases hblames

/-- Building the arena of an input does not end in a defect, and there is one exactly if there is a
tree. Then no search for a position in it meets a defect. Every expression is read without one, and
resolved without one unless the reader of numbers answers with it. A formula took every group of its
expression once, and its evaluation never misses a value. -/
theorem Arena.ofRawTokens_no_defect (settings : Settings) (raw : String) :
    (∀ report, ofRawTokens settings raw = .error report → ∀ d, report.cause ≠ .defect d) ∧
    (∀ a, ofRawTokens settings raw = .ok a ↔ ∃ t, Tree.ofRaw settings raw = .ok t ∧ a = t.arena) ∧
    ∀ t, Tree.ofRaw settings raw = .ok t →
      (∀ id < t.arena.expressions.length, ∃ e, t.root.Inside e ∧
        ∀ offset, t.arena.realPosition id offset = .ok (e.realPosition offset)) ∧
      ∀ e, t.root.Inside e →
        (∃ id < t.arena.expressions.length,
          ∀ offset, t.arena.realPosition id offset = .ok (e.realPosition offset)) ∧
        e.Readable ∧
        ∀ (table : FunctionTable) (numbers : NumberReader),
          (∀ d, Resolver.resolve ⟨table.lookup, numbers⟩ e = .error (.defect d) →
            ∃ entries, numbers entries = .error (.defect d)) ∧
          ∀ f, Resolver.resolve ⟨table.lookup, numbers⟩ e = .ok f →
            (∃ steps, Resolver.Consumes ⟨table.lookup, numbers⟩ e steps f) ∧
            ∀ settings' context, f.evaluate settings' context ≠ .error .nothingToEvaluate := by
  rw [ofRawTokens_eq, ofRaw_eq_map]
  refine ⟨fun report h => Tree.ofRaw_ne_defect (map_eq_error h), fun a => ⟨fun h => ?_, ?_⟩,
    fun t ht => ?_⟩
  · obtain ⟨t, ht, rfl⟩ := map_eq_ok h
    exact ⟨t, ht, rfl⟩
  · rintro ⟨t, ht, rfl⟩
    rw [ht]
    rfl
  · have hroot := (Tree.ofRaw_eq_ok_iff.mp ht).2
    have spelled {e : Expression} (he : t.root.Inside e) :
        ∃ d pos w, Expression.Spelled d pos e w := he.spelled ⟨_, _, _, hroot⟩
    have marked (e : Expression) (he : t.root.Inside e) : e.Marked := by
      obtain ⟨d, pos, w, hw⟩ := spelled he
      exact hw.marked
    obtain ⟨places, positions⟩ := Tree.arena_realPosition marked
    refine ⟨places, fun e he => ⟨positions e he, (marked e he).readable, fun table numbers => ?_⟩⟩
    refine ⟨fun d hd => Resolver.numbers_of_defect (spelled he) hd, fun f hf => ?_⟩
    obtain ⟨d, pos, w, hw⟩ := spelled he
    have proper := Resolver.proper_of_spelled (Resolver.fitting_table table numbers) hw hf
    exact ⟨Resolver.consumes_of_resolve (marked e he) hf, fun settings' context =>
      Formula.evaluate_ne_nothing proper.shaped⟩

theorem Arena.ofRawTokens_call_of_two_groups :
    ∃ (t : Tree) (f : Formula) (steps : List Step), ofRawTokens {} "max(1)[x, 2]*3" = .ok t.arena ∧
      t.root.groups.length = 2 ∧ (∃ id, t.arena.realPosition id 5 = .ok 11) ∧
      Resolver.resolve ⟨Builtin.table.lookup, .exact⟩ t.root = .ok f ∧
      Resolver.Consumes ⟨Builtin.table.lookup, .exact⟩ t.root steps f := by
  obtain ⟨t, ht⟩ : ∃ t, t = (⟨⟨['m', 'a', 'x', '(', '1', ')', '[', 'x', ',', ' ', '2', ']', '*', '3'],
      ['m', 'a', 'x', '(', '1', ')', '[', 'x', ',', '2', ']', '*', '3'],
      [0, 1, 2, 3, 4, 5, 6, 7, 8, 10, 11, 12, 13]⟩,
      .mk 0 13 [.char 'm', .char 'a', .char 'x', .group (.mk .round 3 5 [.mk 4 5 [.char '1']]),
        .group (.mk .square 6 10 [.mk 7 8 [.char 'x'], .mk 9 10 [.char '2']]),
        .char '*', .char '3']⟩ : Tree) := ⟨_, rfl⟩
  have hraw : Tree.ofRaw {} "max(1)[x, 2]*3" = .ok t := by
    rw [ht]
    rfl
  have resolved : (Resolver.resolve ⟨Builtin.table.lookup, .exact⟩ t.root).isOk := by
    rw [ht]
    decide +kernel
  have two : t.root.groups.length = 2 := by
    rw [ht]
    rfl
  have eleven : t.root.realPosition 5 = 11 := by
    rw [ht]
    rfl
  rcases hf : Resolver.resolve ⟨Builtin.table.lookup, .exact⟩ t.root with fault | f
  · rw [hf] at resolved
    cases resolved
  · obtain ⟨-, built, inside⟩ := ofRawTokens_no_defect {} "max(1)[x, 2]*3"
    obtain ⟨⟨id, -, positions⟩, -, resolves⟩ := (inside t hraw).2 t.root .root
    obtain ⟨⟨steps, consumes⟩, -⟩ := (resolves Builtin.table .exact).2 f hf
    exact ⟨t, f, steps, (built _).mpr ⟨t, hraw, rfl⟩, two, ⟨id, eleven ▸ positions 5⟩, hf, consumes⟩

end Reckon
