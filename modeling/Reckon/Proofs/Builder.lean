import Mathlib
import Reckon.Proofs.Scan
import Reckon.Tree.Builder

/-!
# Building an arena is reading a tree

What a builder holds is determined by how far the scan of the tree is (`Scan.builder`): for each open
group, the outermost first, the draft around it and the expressions it already has, with all the rows
of their outlines, and at last the draft of the innermost level. A step of the builder is a step of
the scan (`Scan.builder_step`), faults included, so the arena of an input is that of its tree
(`Arena.ofRaw_eq_map`).

Nodes get their places when reading comes to them, rows of an outline theirs in a walk over the
finished tree. That the two are the same comes down to outlines of items and of expressions put
behind each other (`Outline.ofItems_append`, `Outline.ofExpressions_append`).
-/

namespace Reckon

/-! ### Outlines put behind each other -/

namespace Outline

theorem append_empty (a : Outline) : a.append empty = a := by
  simp [append, empty]

theorem append_assoc (a b c : Outline) : (a.append b).append c = a.append (b.append c) := by
  simp [append]

theorem length_expressions_append (a b : Outline) :
    (a.append b).expressions.length = a.expressions.length + b.expressions.length :=
  List.length_append

theorem length_groups_append (a b : Outline) :
    (a.append b).groups.length = a.groups.length + b.groups.length :=
  List.length_append

theorem ofItems_append (is js : List Item) (e g : Nat) :
    ofItems (is ++ js) e g =
      let before := ofItems is e g
      let after := ofItems js (e + before.2.expressions.length) (g + before.2.groups.length)
      (before.1 ++ after.1, before.2.append after.2) := by
  induction is generalizing e g with
  | nil => rfl
  | cons i is ih =>
    cases i with
    | char c =>
      rw [List.cons_append, ofItems, ofItems]
      exact ih e g
    | group group =>
      simp only [List.cons_append, ofItems, ih, append_assoc, length_expressions_append,
        length_groups_append, Nat.add_assoc]

theorem ofExpressions_append (es fs : List Expression) (e g : Nat) :
    ofExpressions (es ++ fs) e g =
      let before := ofExpressions es e g
      let after := ofExpressions fs (e + before.2.expressions.length) (g + before.2.groups.length)
      (before.1 ++ after.1, before.2.append after.2) := by
  induction es generalizing e g with
  | nil => rfl
  | cons child es ih =>
    simp only [List.cons_append, ofExpressions, ih, append_assoc, length_expressions_append,
      length_groups_append, Nat.add_assoc]

theorem ofItems_char (c : Char) (e g : Nat) : ofItems [.char c] e g = ([], empty) := by
  rw [ofItems, ofItems]

theorem ofItems_group (group : Group) (e g : Nat) :
    ofItems [.group group] e g = ([g], ofGroup group e g) := by
  simp only [ofItems, append_empty]

theorem ofExpressions_singleton (child : Expression) (e g : Nat) :
    ofExpressions [child] e g = ([e], ofExpression child e g) := by
  simp only [ofExpressions, append_empty]

theorem length_ofExpressions (es : List Expression) (e g : Nat) :
    (ofExpressions es e g).1.length = es.length := by
  induction es generalizing e g with
  | nil => rfl
  | cons child es ih => simp only [ofExpressions, List.length_cons, ih]

end Outline

/-! ### What a builder holds -/

namespace Builder

/-- Adds finished nodes. -/
def withRows (b : Builder) (o : Outline) : Builder :=
  { b with
    expressions := b.expressions ++ o.expressions.map ExpressionRow.node
    groups := b.groups ++ o.groups.map GroupRow.node }

/-- The outline of what a draft has, if it gets the next place. -/
def draftRows (b : Builder) (d : Draft) : List Nat × Outline :=
  Outline.ofItems d.items.reverse (b.expressions.length + 1) b.groups.length

def draftNode (b : Builder) (d : Draft) : ExpressionNode :=
  ⟨d.finish.content, (b.draftRows d).1, d.start, d.stop, .building⟩

/-- Adds a draft, which is the open expression then. -/
def withDraft (b : Builder) (d : Draft) : Builder :=
  withRows { b with
    expressions := b.expressions ++ [b.draftNode d]
    current := some b.expressions.length } (b.draftRows d).2

/-- The outline of what an open group has, if it gets the next place. -/
def groupRows (b : Builder) (g : OpenGroup) : List Nat × Outline :=
  Outline.ofExpressions g.children.reverse b.expressions.length (b.groups.length + 1)

def groupNode (b : Builder) (g : OpenGroup) : GroupNode :=
  ⟨g.bracket.opening, g.bracket.closing, none, g.start, none, (b.groupRows g).1, .building⟩

/-- Adds an open group, behind which nothing is open yet. -/
def withGroup (b : Builder) (g : OpenGroup) : Builder :=
  withRows { b with
    groups := b.groups ++ [b.groupNode g]
    current := none
    opened := ⟨b.groups.length, b.current⟩ :: b.opened } (b.groupRows g).2

def ofFrames : List OpenGroup → Builder
  | [] => start
  | g :: gs => ((ofFrames gs).withDraft g.outer).withGroup g

end Builder

/-- The builder that has read as far as the scan. -/
def Scan.builder (s : Scan) : Builder :=
  match s.current with
  | none => .ofFrames s.opened
  | some d => (Builder.ofFrames s.opened).withDraft d

namespace Builder

variable {b : Builder} {d : Draft} {g : OpenGroup} {gs : List OpenGroup} {position : Nat}

/-! ### Updates -/

theorem updateExpression_eq {pre post : List ExpressionNode} {e : ExpressionNode}
    (h : b.expressions = pre ++ e :: post) (f : ExpressionNode → Except ParseFault ExpressionNode) :
    b.updateExpression pre.length f =
      (f e).map fun e' => { b with expressions := pre ++ e' :: post } := by
  simp [updateExpression, h]

theorem updateGroup_eq {pre post : List GroupNode} {g : GroupNode} (h : b.groups = pre ++ g :: post)
    (f : GroupNode → Except ParseFault GroupNode) :
    b.updateGroup pre.length f = (f g).map fun g' => { b with groups := pre ++ g' :: post } := by
  simp [updateGroup, h]

theorem expressions_withDraft (b : Builder) (d : Draft) :
    (b.withDraft d).expressions = b.expressions ++
      b.draftNode d :: (b.draftRows d).2.expressions.map ExpressionRow.node :=
  (List.append_cons ..).symm

theorem groups_withGroup (b : Builder) (g : OpenGroup) :
    (b.withGroup g).groups = b.groups ++
      b.groupNode g :: (b.groupRows g).2.groups.map GroupRow.node :=
  (List.append_cons ..).symm

/-! ### The open expression -/

theorem current_ofFrames (gs : List OpenGroup) : (ofFrames gs).current = none := by
  cases gs <;> rfl

theorem currentExpression_none (h : b.current = none) (position : Nat) :
    b.currentExpression position = (b.expressions.length, b.withDraft (.new position)) := by
  have rows : b.draftRows (.new position) = ([], .empty) := by rw [draftRows]; rfl
  rw [currentExpression, h]
  simp only [withDraft, draftNode, rows, withRows, Outline.empty, List.map_nil, List.append_nil]
  rfl

theorem builder_currentExpression (s : Scan) (position : Nat) :
    s.builder.currentExpression position =
      ((ofFrames s.opened).expressions.length, (ofFrames s.opened).withDraft (s.draft position)) := by
  obtain ⟨current, gs⟩ := s
  cases current with
  | none => exact currentExpression_none (current_ofFrames gs) position
  | some d => rfl

theorem length_opened_ofFrames (gs : List OpenGroup) : (ofFrames gs).opened.length = gs.length := by
  induction gs with
  | nil => rfl
  | cons g gs ih => exact congrArg (· + 1) ih

/-! ### Characters and opening brackets -/

theorem isAppendable_draftNode (b : Builder) (d : Draft) (position : Nat) :
    (b.draftNode d).isAppendable position ↔ position = d.stop := by
  simp [draftNode, ExpressionNode.isAppendable]

theorem append_withDraft (b : Builder) (d : Draft) (position : Nat) (c : Char) :
    (b.withDraft d).updateExpression b.expressions.length (·.append position [c]) =
      (d.append position (.char c)).map b.withDraft := by
  rw [updateExpression_eq (expressions_withDraft b d), Draft.append]
  by_cases h : position = d.stop
  · have rows : b.draftRows ⟨d.start, position + 1, .char c :: d.items⟩ = b.draftRows d := by
      simp only [draftRows, List.reverse_cons, Outline.ofItems_append, Outline.ofItems_char,
        Outline.append_empty, List.append_nil]
    have node : (b.draftNode d).append position [c] =
        .ok (b.draftNode ⟨d.start, position + 1, .char c :: d.items⟩) := by
      rw [ExpressionNode.append, if_pos ((isAppendable_draftNode b d position).mpr h), draftNode,
        draftNode, rows, h]
      simp [Draft.finish, Expression.content, Expression.items, Item.mark]
    rw [node, if_pos h]
    simp only [Except.map, Item.behind, withDraft, withRows, rows]
    simp
  · rw [ExpressionNode.append, if_neg (mt (isAppendable_draftNode b d position).mp h), if_neg h]
    rfl

theorem builder_plain (s : Scan) (position : Nat) (c : Char) :
    s.builder.plain position c = (s.plain position c).map Scan.builder := by
  rw [plain, builder_currentExpression, Scan.plain]
  refine (append_withDraft _ _ position c).trans ?_
  cases (s.draft position).append position (.char c) <;> rfl

theorem builder_openGroup (limit : Nat) (s : Scan) (position : Nat) (bracket : Bracket) :
    s.builder.openGroup limit position bracket =
      (s.openGroup limit position bracket).map Scan.builder := by
  have depth : s.builder.opened.length = s.opened.length := by
    obtain ⟨current, gs⟩ := s
    cases current <;> exact length_opened_ofFrames gs
  rw [openGroup, Scan.openGroup, depth, builder_currentExpression]
  by_cases h : limit ≤ s.opened.length
  · rw [if_pos h, if_pos h]
    rfl
  · rw [if_neg h, if_neg h]
    simp only [Except.map, Scan.builder, ofFrames, withGroup, withRows, groupNode, groupRows,
      List.reverse_nil, Outline.ofExpressions, Outline.empty, List.map_nil, List.append_nil]
    rfl

/-! ### Ends of expressions -/

/-- A draft that is finalized has the rows of the expression it ends as. -/
theorem finalize_withDraft (b : Builder) (d : Draft) :
    (b.withDraft d).updateExpression b.expressions.length (fun e => .ok e.finalize) =
      .ok (withRows { b with current := some b.expressions.length }
        (Outline.ofExpression d.finish b.expressions.length b.groups.length)) := by
  rw [updateExpression_eq (expressions_withDraft b d)]
  rfl

theorem addChild_withGroup (b : Builder) (g : OpenGroup) (e : Expression) {id : Nat}
    (hid : id = (b.withGroup g).expressions.length) :
    (withRows { b.withGroup g with current := some id }
        (Outline.ofExpression e id (b.withGroup g).groups.length)).updateGroup b.groups.length
      (fun node => .ok (node.addChild id)) =
        .ok { b.withGroup { g with children := e :: g.children } with current := some id } := by
  obtain ⟨last, hlast⟩ : ∃ o, o = Outline.ofExpression e id (b.withGroup g).groups.length := ⟨_, rfl⟩
  have rows : b.groupRows { g with children := e :: g.children } =
      ((b.groupRows g).1 ++ [id], (b.groupRows g).2.append last) := by
    simp only [groupRows, List.reverse_cons, Outline.ofExpressions_append, hlast, hid,
      Outline.ofExpressions_singleton, withGroup, withRows, List.length_append, List.length_map,
      List.length_cons, List.length_nil, Nat.zero_add]
  have groups : (withRows { b.withGroup g with current := some id } last).groups =
      b.groups ++ b.groupNode g :: ((b.groupRows g).2.groups ++ last.groups).map GroupRow.node := by
    simp [withRows, withGroup]
  rw [← hlast, updateGroup_eq groups]
  simp [Except.map, withGroup, groupNode, rows, withRows, Outline.append, GroupNode.addChild]

theorem endDimension_eq (b : Builder) (g : OpenGroup) (d : Draft) (token : Char) (position : Nat) :
    ((b.withGroup g).withDraft d).endDimension token position =
      .ok (b.groups.length, b.withGroup { g with children := d.finish :: g.children }) := by
  have linked := addChild_withGroup b g d.finish rfl
  rw [endDimension]
  show Except.bind _ _ = _
  rw [finalize_withDraft]
  exact congrArg (fun r => r >>= fun b' => pure (b.groups.length, { b' with current := none })) linked

theorem builder_separate (s : Scan) (position : Nat) :
    s.builder.separate position = (s.separate position).map Scan.builder := by
  obtain ⟨current, gs⟩ := s
  rcases current with _ | d
  · rw [separate, endDimension, Scan.builder, current_ofFrames]
    rfl
  · rcases gs with _ | ⟨g, gs⟩
    · rfl
    · rw [separate, Scan.builder, ofFrames, endDimension_eq, Scan.separate_eq]
      rfl

/-! ### Closing brackets -/

/-- A group that is finalized has the rows of the group it was read as. -/
theorem finalize_withGroup (b : Builder) (g : OpenGroup) (position : Nat) (hne : g.children ≠ []) :
    (b.withGroup g).updateGroup b.groups.length (·.finalize g.bracket.closing position) =
      .ok (withRows { b with current := none, opened := ⟨b.groups.length, b.current⟩ :: b.opened }
        (Outline.ofGroup (.mk g.bracket g.start position g.children.reverse) b.expressions.length
          b.groups.length)) := by
  have children : (b.groupNode g).children.isEmpty = false := by
    rw [List.isEmpty_eq_false_iff, ← List.length_pos_iff, groupNode, groupRows,
      Outline.length_ofExpressions, List.length_reverse]
    exact List.length_pos_iff.mpr hne
  rw [updateGroup_eq (groups_withGroup b g), GroupNode.finalize, children]
  rfl

theorem appendGroup_withDraft (b : Builder) (d : Draft) (group : Group) (position : Nat) :
    (withRows (b.withDraft d) (Outline.ofGroup group (b.withDraft d).expressions.length
        (b.withDraft d).groups.length)).updateExpression b.expressions.length
      (·.appendGroup (b.withDraft d).groups.length position group.stop) =
        (d.append position (.group group)).map b.withDraft := by
  obtain ⟨added, hadded⟩ : ∃ o, o = Outline.ofGroup group (b.withDraft d).expressions.length
      (b.withDraft d).groups.length := ⟨_, rfl⟩
  have expressions : (withRows (b.withDraft d) added).expressions = b.expressions ++
      b.draftNode d ::
        ((b.draftRows d).2.expressions ++ added.expressions).map ExpressionRow.node := by
    simp [withRows, withDraft]
  rw [← hadded, updateExpression_eq expressions, Draft.append]
  by_cases h : position = d.stop
  · have rows : b.draftRows ⟨d.start, group.stop + 1, .group group :: d.items⟩ =
        ((b.draftRows d).1 ++ [(b.withDraft d).groups.length], (b.draftRows d).2.append added) := by
      have places : (b.withDraft d).expressions.length =
          b.expressions.length + 1 + (b.draftRows d).2.expressions.length := by
        rw [expressions_withDraft, List.length_append, List.length_cons, List.length_map]
        omega
      simp only [draftRows, List.reverse_cons, Outline.ofItems_append, Outline.ofItems_group, hadded,
        places]
      simp [withDraft, withRows, draftRows]
    have node : (b.draftNode d).appendGroup (b.withDraft d).groups.length position group.stop =
        .ok (b.draftNode ⟨d.start, group.stop + 1, .group group :: d.items⟩) := by
      rw [ExpressionNode.appendGroup, if_pos ((isAppendable_draftNode b d position).mpr h), draftNode,
        draftNode, rows]
      simp [Draft.finish, Expression.content, Expression.items, Item.mark]
    rw [node, if_pos h]
    simp only [Except.map, Item.behind, withDraft, withRows, rows]
    simp [Outline.append]
  · rw [ExpressionNode.appendGroup, if_neg (mt (isAppendable_draftNode b d position).mp h), if_neg h]
    rfl

theorem closing_injective {b b' : Bracket} (h : b.closing = b'.closing) : b = b' := by
  revert h
  cases b <;> cases b' <;> decide

theorem endDimension_outermost (b : Bracket) (d : Draft) (position : Nat) :
    (start.withDraft d).endDimension b.closing position = .error (.strayClose b.closing position) := by
  have : b.closing ≠ separator := by cases b <;> decide
  exact if_neg this

theorem endGroup_eq (b : Builder) (d : Draft) (g : OpenGroup) (position : Nat)
    (hne : g.children ≠ []) :
    ((b.withDraft d).withGroup g).endGroup (b.withDraft d).groups.length position g.bracket.closing =
      (d.append g.start (.group (.mk g.bracket g.start position g.children.reverse))).map
        b.withDraft := by
  have found : ((b.withDraft d).withGroup g).groups[(b.withDraft d).groups.length]? =
      some ((b.withDraft d).groupNode g) := by
    simp [groups_withGroup]
  rw [endGroup, found]
  show (if g.bracket.closing = g.bracket.closing then _ else _) = _
  rw [if_pos rfl, finalize_withGroup _ _ _ hne]
  exact appendGroup_withDraft b d (.mk g.bracket g.start position g.children.reverse) g.start

theorem endGroup_eq_error (b : Builder) (g : OpenGroup) (position : Nat) {token : Char}
    (h : g.bracket.closing ≠ token) : (b.withGroup g).endGroup b.groups.length position token =
      .error (.wrongClose g.bracket.closing token g.start position) := by
  have found : (b.withGroup g).groups[b.groups.length]? = some (b.groupNode g) := by
    simp [groups_withGroup]
  rw [endGroup, found]
  exact if_neg h

theorem closeGroup_eq (gs : List OpenGroup) (g : OpenGroup) (d : Draft) (position : Nat) (b : Bracket) :
    ((ofFrames (g :: gs)).withDraft d).closeGroup position b.closing =
      ((⟨some d, g :: gs⟩ : Scan).closeGroup position b).map Scan.builder := by
  rw [closeGroup, ofFrames, endDimension_eq]
  show endGroup _ _ _ _ = _
  by_cases hb : g.bracket = b
  · subst hb
    simp only [Scan.closeGroup, if_true]
    refine (endGroup_eq (ofFrames gs) g.outer { g with children := d.finish :: g.children } position
      (List.cons_ne_nil _ _)).trans ?_
    simp only
    cases g.outer.append g.start
      (.group (.mk g.bracket g.start position (d.finish :: g.children).reverse)) <;> rfl
  · simp only [Scan.closeGroup, if_neg hb]
    exact endGroup_eq_error _ _ _ (mt closing_injective hb)

theorem builder_closeGroup (s : Scan) (position : Nat) (b : Bracket) :
    s.builder.closeGroup position b.closing = (s.closeGroup position b).map Scan.builder := by
  obtain ⟨current, gs⟩ := s
  rcases current with _ | d
  · rw [closeGroup, endDimension, Scan.builder, current_ofFrames]
    rfl
  · rcases gs with _ | ⟨g, gs⟩
    · rw [closeGroup, Scan.builder, ofFrames, endDimension_outermost]
      rfl
    · exact closeGroup_eq gs g d position b

/-! ### The whole text -/

/-- A step of the builder is a step of the scan. -/
theorem builder_step (limit : Nat) (s : Scan) (position : Nat) (c : Char) :
    s.builder.step limit position c = (s.step limit position c).map Scan.builder := by
  rw [step, Scan.step]
  by_cases hs : c = separator
  · rw [if_pos hs, if_pos hs]
    exact builder_separate s position
  · rw [if_neg hs, if_neg hs]
    rcases ho : Bracket.ofOpening c with _ | bracket
    · rcases hc : Bracket.ofClosing c with _ | bracket
      · exact builder_plain s position c
      · obtain rfl := ofClosing_eq_some hc
        exact builder_closeGroup s position bracket
    · exact builder_openGroup limit s position bracket

theorem builder_run (limit : Nat) (cs : List Char) (position : Nat) (s : Scan) :
    run limit cs position s.builder = (Scan.run limit cs position s).map Scan.builder := by
  induction cs generalizing position s with
  | nil => rfl
  | cons c cs ih =>
    rw [run, Scan.run, builder_step]
    rcases s.step limit position c with fault | s'
    · rfl
    · exact ih (position + 1) s'

/-- The brackets that wait for their partners are those of the open groups, whatever comes behind
them. -/
theorem filterMap_opened (gs : List OpenGroup) {nodes more : List GroupNode}
    (h : nodes = (ofFrames gs).groups ++ more) :
    (ofFrames gs).opened.filterMap (fun level =>
        nodes[level.group]?.map fun g => (g.expected, g.start)) =
      gs.map fun g => (g.bracket.closing, g.start) := by
  induction gs generalizing more with
  | nil => rfl
  | cons g gs ih =>
    obtain ⟨b, hb⟩ : ∃ b, b = (ofFrames gs).withDraft g.outer := ⟨_, rfl⟩
    have nodes_eq : nodes = b.groups ++ b.groupNode g ::
        ((b.groupRows g).2.groups.map GroupRow.node ++ more) := by
      rw [h, ofFrames, ← hb, groups_withGroup, List.append_assoc, List.cons_append]
    have outer : nodes = (ofFrames gs).groups ++
        (((ofFrames gs).draftRows g.outer).2.groups.map GroupRow.node ++ b.groupNode g ::
          ((b.groupRows g).2.groups.map GroupRow.node ++ more)) := by
      rw [nodes_eq, ← List.append_assoc]
      exact congrArg (·.groups ++ _) hb
    have found : nodes[b.groups.length]? = some (b.groupNode g) := by
      simp [nodes_eq]
    have opened : (ofFrames (g :: gs)).opened = ⟨b.groups.length, b.current⟩ :: (ofFrames gs).opened := by
      rw [hb]
      rfl
    rw [opened, List.filterMap_cons_some (by rw [found]; rfl), ih outer]
    rfl

theorem builder_pending (s : Scan) : s.builder.pending = s.pending := by
  obtain ⟨current, gs⟩ := s
  have pending_eq (b : Builder) (ho : b.opened = (ofFrames gs).opened) (more : List GroupNode)
      (hg : b.groups = (ofFrames gs).groups ++ more) : b.pending = (⟨current, gs⟩ : Scan).pending := by
    rw [pending, Scan.pending, List.filterMap_reverse, List.map_reverse, ho, filterMap_opened gs hg]
  rcases current with _ | d
  · exact pending_eq _ rfl [] (List.append_nil _).symm
  · exact pending_eq _ rfl _ rfl

theorem builder_finish (s : Scan) (text : Text) :
    s.builder.finish text = (s.finish text.stripped.length).map fun e => Tree.arena ⟨text, e⟩ := by
  have hp := builder_pending s
  obtain ⟨current, gs⟩ := s
  rcases gs with _ | ⟨g, gs⟩
  · rcases current with _ | d
    · rfl
    · have finalized := finalize_withDraft start d
      exact congrArg (Except.map fun b => (⟨text, b.expressions, b.groups, 0⟩ : Arena)) finalized
  · rw [finish, Scan.finish]
    rcases current with _ | d <;> exact congrArg (fun p => Except.error (ParseFault.unclosed p)) hp

end Builder

namespace Arena

theorem ofText_eq_map (limit : Nat) (t : Text) :
    ofText limit t = (Tree.ofText limit t).map Tree.arena := by
  have run := Builder.builder_run limit t.stripped 0 .start
  rw [ofText, Tree.ofText]
  by_cases hr : (t.positionsOf [placeholder]).isEmpty
  · simp only [hr, if_true, Expression.ofStripped]
    rw [show Builder.start = Scan.start.builder from rfl, run]
    rcases Scan.run limit t.stripped 0 .start with fault | s
    · rfl
    · refine (Builder.builder_finish s t).trans ?_
      simp only
      rcases s.finish t.stripped.length with fault | e <;> rfl
  · simp only [hr]
    rfl

/-- The arena of an input is that of its tree, and without a tree it has the same fault. -/
theorem ofRaw_eq_map (settings : Settings) (raw : String) :
    ofRaw settings raw = (Tree.ofRaw settings raw).map Tree.arena := by
  rw [ofRaw, Tree.ofRaw]
  rcases Text.ofRaw raw with fault | t
  · rfl
  · simp only [ofText_eq_map]
    rcases Tree.ofText settings.maxDepth t with fault | tree <;> rfl

end Arena

end Reckon
