import Mathlib
import Reckon.Proofs.Layout
import Reckon.Proofs.Tokens

/-!
# The kind of a bracket has no meaning

A group has to be closed by the bracket of its own kind, and that is all that kinds are for. So an
input that has a tree has the same tree with round brackets in place of all others (`unified`): the
grammar says which tree a text spells, and its rules are the same for each kind
(`Expression.Spelled.unified`). The rows of the outline differ in the tokens of the groups alone
(`Outline.ofExpression_unified`), and the formula does not differ at all, because content, positions
and the number of expressions in a group are all that the resolver looks at
(`Resolver.resolve_unified`).
-/

namespace Reckon

/-! ### Round brackets -/

/-- An opening bracket becomes `(`, a closing one `)`, of whatever kind it is. -/
def unifyBracket (c : Char) : Char :=
  match Bracket.ofOpening c, Bracket.ofClosing c with
  | some _, _ => Bracket.round.opening
  | none, some _ => Bracket.round.closing
  | none, none => c

def unifyBrackets (raw : String) : String := String.ofList (raw.toList.map unifyBracket)

mutual
/-- The expression with groups between round brackets. -/
def Expression.unified : Expression → Expression
  | .mk start stop items => .mk start stop (Item.unifiedAll items)
def Item.unified : Item → Item
  | .char c => .char c
  | .group g => .group g.unified
def Item.unifiedAll : List Item → List Item
  | [] => []
  | i :: is => i.unified :: Item.unifiedAll is
def Group.unified : Group → Group
  | .mk _ start stop children => .mk .round start stop (Expression.unifiedAll children)
def Expression.unifiedAll : List Expression → List Expression
  | [] => []
  | e :: es => e.unified :: Expression.unifiedAll es
end

/-- The node of a group with the tokens of a round one. -/
def GroupNode.unified (g : GroupNode) : GroupNode :=
  { g with
    opening := Bracket.round.opening
    expected := Bracket.round.closing
    actual := g.actual.map fun _ => Bracket.round.closing }

/-! ### Characters -/

section
variable {c : Char}

theorem unifyBracket_opening (b : Bracket) : unifyBracket b.opening = Bracket.round.opening := by
  cases b <;> rfl

theorem unifyBracket_closing (b : Bracket) : unifyBracket b.closing = Bracket.round.closing := by
  cases b <;> rfl

theorem unifyBracket_plain (h : isPlain c) : unifyBracket c = c := by
  obtain ⟨ho, hc, -⟩ := isPlain_iff.mp h
  rw [unifyBracket, ho, hc]

/-- Brackets are not blank, neither before nor after. -/
theorem unifyBracket_cases (c : Char) :
    unifyBracket c = c ∨ (¬ isBlank c ∧ ¬ isBlank (unifyBracket c)) := by
  rcases char_cases c with h | rfl | rfl | ⟨b, rfl⟩ | ⟨b, rfl⟩
  · exact .inl (unifyBracket_plain h)
  · exact .inl rfl
  · exact .inl rfl
  · refine .inr ⟨?_, by rw [unifyBracket_opening]; decide⟩
    cases b <;> decide
  · refine .inr ⟨?_, by rw [unifyBracket_closing]; decide⟩
    cases b <;> decide

theorem isBlank_unifyBracket (c : Char) : isBlank (unifyBracket c) = isBlank c := by
  rcases unifyBracket_cases c with h | ⟨h, h'⟩
  · rw [h]
  · rw [Bool.eq_false_iff.mpr h, Bool.eq_false_iff.mpr h']

theorem stripped_unifyBracket (c : Char) :
    (!isLineBreak (unifyBracket c) && !isGap (unifyBracket c)) = (!isLineBreak c && !isGap c) := by
  rcases unifyBracket_cases c with h | ⟨h, h'⟩
  · rw [h]
  · rw [not_lineBreak_gap h, not_lineBreak_gap h']

theorem strippedChars_unifyBrackets (raw : String) :
    strippedChars (unifyBrackets raw) = (strippedChars raw).map unifyBracket := by
  rw [strippedChars, strippedChars, unifyBrackets, String.toList_ofList, List.filter_map]
  exact congrArg _ (List.filter_congr fun c _ => stripped_unifyBracket c)

theorem all_isBlank_unifyBrackets (raw : String) :
    (unifyBrackets raw).toList.all isBlank = raw.toList.all isBlank := by
  rw [unifyBrackets, String.toList_ofList, List.all_map]
  exact congrArg raw.toList.all (funext isBlank_unifyBracket)

end

/-! ### The tree that a text spells -/

mutual
theorem Expression.Spelled.unified : ∀ {d pos : Nat} {e : Expression} {w : List Char},
    e.Spelled d pos w → e.unified.Spelled d pos (w.map unifyBracket)
  | _, _, _, _, @Expression.Spelled.mk d pos items w hne h => by
    have hne' : Item.unifiedAll items ≠ [] := by
      cases items with
      | nil => exact absurd rfl hne
      | cons i is => exact List.cons_ne_nil _ _
    have := Expression.Spelled.mk hne' (Item.SpelledAll.unified h)
    rw [List.length_map] at this
    rwa [Expression.unified]
theorem Item.SpelledAll.unified : ∀ {d pos : Nat} {items : List Item} {w : List Char},
    Item.SpelledAll d pos items w → Item.SpelledAll d pos (Item.unifiedAll items) (w.map unifyBracket)
  | _, _, _, _, .nil => .nil
  | _, _, _, _, .char h hs => by
    rw [List.map_cons, unifyBracket_plain h]
    exact .char h (Item.SpelledAll.unified hs)
  | _, _, _, _, .group (u := u) h hs => by
    have later := Item.SpelledAll.unified hs
    rw [← List.length_map (f := unifyBracket)] at later
    rw [List.map_append]
    exact .group (Group.Spelled.unified h) later
theorem Group.Spelled.unified : ∀ {d pos : Nat} {g : Group} {w : List Char},
    g.Spelled d pos w → g.unified.Spelled d pos (w.map unifyBracket)
  | _, _, _, _, @Group.Spelled.mk d pos b children w h => by
    have := Group.Spelled.mk (b := .round) (Expression.SpelledAll.unified h)
    rw [List.length_map] at this
    rw [List.map_cons, List.map_append, List.map_singleton, unifyBracket_opening,
      unifyBracket_closing]
    exact this
theorem Expression.SpelledAll.unified : ∀ {d pos : Nat} {es : List Expression} {w : List Char},
    Expression.SpelledAll d pos es w →
      Expression.SpelledAll d pos (Expression.unifiedAll es) (w.map unifyBracket)
  | _, _, _, _, .last h => .last (Expression.Spelled.unified h)
  | _, _, _, _, .more (u := u) h hs => by
    have later := Expression.SpelledAll.unified hs
    rw [← List.length_map (f := unifyBracket)] at later
    rw [List.map_append, List.map_cons]
    exact .more (Expression.Spelled.unified h) later
end

/-! ### What stays of a tree -/

theorem Item.unifiedAll_eq_map (is : List Item) : Item.unifiedAll is = is.map Item.unified := by
  induction is with
  | nil => rfl
  | cons i is ih => rw [Item.unifiedAll, ih, List.map_cons]

theorem Expression.unifiedAll_eq_map (es : List Expression) :
    Expression.unifiedAll es = es.map Expression.unified := by
  induction es with
  | nil => rfl
  | cons e es ih => rw [Expression.unifiedAll, ih, List.map_cons]

namespace Group

@[simp] theorem start_unified (g : Group) : g.unified.start = g.start := by
  cases g
  rw [unified]
  rfl

@[simp] theorem stop_unified (g : Group) : g.unified.stop = g.stop := by
  cases g
  rw [unified]
  rfl

@[simp] theorem dimension_unified (g : Group) : g.unified.dimension = g.dimension := by
  cases g
  rw [unified, dimension, dimension, children, children, Expression.unifiedAll_eq_map,
    List.length_map]

end Group

theorem Item.mark_unified (i : Item) : i.unified.mark = i.mark := by
  cases i with
  | char c => rw [Item.unified]
  | group g =>
    rw [Item.unified]
    rfl

theorem Item.behind_unified (position : Nat) (i : Item) :
    i.unified.behind position = i.behind position := by
  cases i with
  | char c => rw [Item.unified]
  | group g => rw [Item.unified, Item.behind, Item.behind, Group.stop_unified]

namespace Expression

theorem items_unified (e : Expression) : e.unified.items = e.items.map Item.unified := by
  cases e
  rw [unified, items, items, Item.unifiedAll_eq_map]

theorem start_unified (e : Expression) : e.unified.start = e.start := by
  cases e
  rw [unified]
  rfl

theorem content_unified (e : Expression) : e.unified.content = e.content := by
  rw [content, content, items_unified, List.map_map]
  exact List.map_congr_left fun i _ => i.mark_unified

theorem realPosition_unified (e : Expression) (offset : Nat) :
    e.unified.realPosition offset = e.realPosition offset := by
  rw [realPosition, realPosition, items_unified, start_unified, ← List.map_take, List.foldl_map]
  simp only [Item.behind_unified]

end Expression

/-! ### The outline -/

def ExpressionRow.unified (row : ExpressionRow) : ExpressionRow := ⟨row.expression.unified, row.groups⟩

def GroupRow.unified (row : GroupRow) : GroupRow := ⟨row.group.unified, row.children⟩

theorem ExpressionRow.node_unified (row : ExpressionRow) : row.unified.node = row.node := by
  obtain ⟨⟨start, stop, items⟩, groups⟩ := row
  have content := (Expression.mk start stop items).content_unified
  rw [unified, node, node, content, Expression.unified]
  rfl

theorem GroupRow.node_unified (row : GroupRow) : row.unified.node = row.node.unified := by
  obtain ⟨⟨bracket, start, stop, es⟩, children⟩ := row
  rw [unified, Group.unified]
  rfl

namespace Outline

def unified (o : Outline) : Outline :=
  ⟨o.expressions.map ExpressionRow.unified, o.groups.map GroupRow.unified⟩

theorem unified_append (o o' : Outline) : (o.append o').unified = o.unified.append o'.unified := by
  rw [append, append, unified, List.map_append, List.map_append]
  rfl

mutual
theorem ofExpression_unified : ∀ (x : Expression) (e g : Nat),
    ofExpression x.unified e g = (ofExpression x e g).unified
  | .mk start stop items, e, g => by
    rw [Expression.unified, ofExpression, ofExpression, ofItems_unified]
    simp only [unified, ExpressionRow.unified, List.map_cons, Expression.unified]
theorem ofItems_unified : ∀ (items : List Item) (e g : Nat),
    ofItems (Item.unifiedAll items) e g = ((ofItems items e g).1, (ofItems items e g).2.unified)
  | [], e, g => by
    rw [Item.unifiedAll, ofItems]
    rfl
  | .char _ :: items, e, g => by
    rw [Item.unifiedAll, Item.unified, ofItems, ofItems, ofItems_unified]
  | .group group :: items, e, g => by
    rw [Item.unifiedAll, Item.unified, ofItems, ofItems, ofGroup_unified, ofItems_unified,
      unified_append]
    simp only [unified, List.length_map]
theorem ofGroup_unified : ∀ (x : Group) (e g : Nat),
    ofGroup x.unified e g = (ofGroup x e g).unified
  | .mk bracket start stop children, e, g => by
    rw [Group.unified, ofGroup, ofGroup, ofExpressions_unified]
    simp only [unified, GroupRow.unified, List.map_cons, Group.unified]
theorem ofExpressions_unified : ∀ (children : List Expression) (e g : Nat),
    ofExpressions (Expression.unifiedAll children) e g =
      ((ofExpressions children e g).1, (ofExpressions children e g).2.unified)
  | [], e, g => by
    rw [Expression.unifiedAll, ofExpressions]
    rfl
  | child :: children, e, g => by
    rw [Expression.unifiedAll, ofExpressions, ofExpressions, ofExpression_unified,
      ofExpressions_unified, unified_append]
    simp only [unified, List.length_map]
end

end Outline

/-! ### The formula -/

def ResolvedGroup.unified (g : ResolvedGroup) : ResolvedGroup := ⟨g.group.unified, g.formulas⟩

theorem ResolvedGroup.flatMap_formulas_unified (gs : List ResolvedGroup) :
    (gs.map unified).flatMap formulas = gs.flatMap formulas := by
  rw [List.flatMap_map]
  rfl

namespace Resolver

theorem element_unified (r : Resolver) (e : Expression) (gs : List ResolvedGroup) (s : Step) :
    r.element e.unified (gs.map ResolvedGroup.unified) s =
      (r.element e gs s).map fun p => (p.1, p.2.map ResolvedGroup.unified) := by
  unfold element
  cases s.operand with
  | placeholder =>
    cases gs with
    | nil => rfl
    | cons g gs =>
      obtain ⟨g, formulas⟩ := g
      simp only [List.map_cons, ResolvedGroup.unified, Group.dimension_unified, Group.start_unified]
      rcases formulas with _ | ⟨f, _ | ⟨f', fs⟩⟩
      · rfl
      · cases f <;> rfl
      · rfl
  | call name count =>
    simp only [List.length_map, ← List.map_take, ← List.map_drop,
      ResolvedGroup.flatMap_formulas_unified, Expression.realPosition_unified]
    split
    · rfl
    · split
      · rfl
      · cases firstFault ((gs.take count).flatMap ResolvedGroup.formulas) <;> rfl
  | var name => rfl
  | number literal parts =>
    cases parts with
    | none => rfl
    | some parts => cases h : r.numbers parts.entries <;> simp [h, Except.map]

theorem elements_unified (r : Resolver) (e : Expression) (gs : List ResolvedGroup)
    (ss : List Step) : r.elements e.unified (gs.map ResolvedGroup.unified) ss =
      (r.elements e gs ss).map fun p => (p.1, p.2.map ResolvedGroup.unified) := by
  induction ss generalizing gs with
  | nil => rfl
  | cons s ss ih =>
    rw [elements, elements, element_unified]
    rcases r.element e gs s with fault | ⟨x, left⟩
    · rfl
    · simp only [Except.map, ih]
      rcases r.elements e left ss with fault | ⟨later, left'⟩ <;> rfl

theorem formula_unified (r : Resolver) (e : Expression) (gs : List ResolvedGroup) :
    r.formula e.unified (gs.map ResolvedGroup.unified) = r.formula e gs := by
  rw [formula, formula, Expression.content_unified, Expression.realPosition_unified]
  split
  · rfl
  · rfl
  · rw [elements_unified, Expression.realPosition_unified]
    rcases r.elements e gs _ with fault | ⟨f, left⟩ <;> rfl

variable (r : Resolver)

mutual
/-- The kinds of the brackets have no part in the formula, nor in what can be wrong with it. -/
theorem resolve_unified : ∀ e : Expression, r.resolve e.unified = r.resolve e
  | .mk start stop items => by
    have := r.formula_unified (.mk start stop items) (r.resolveItems items)
    rw [Expression.unified] at this
    rw [Expression.unified, resolve, resolve, resolveItems_unified, this]
theorem resolveItems_unified : ∀ items : List Item,
    r.resolveItems (Item.unifiedAll items) = (r.resolveItems items).map ResolvedGroup.unified
  | [] => by
    rw [Item.unifiedAll, resolveItems]
    rfl
  | .char c :: items => by
    rw [Item.unifiedAll, Item.unified, resolveItems, resolveItems, resolveItems_unified]
  | .group g :: items => by
    rw [Item.unifiedAll, Item.unified, resolveItems, resolveItems, resolveItems_unified,
      resolveGroup_unified]
    rfl
theorem resolveGroup_unified : ∀ g : Group, r.resolveGroup g.unified = r.resolveGroup g
  | .mk b start stop children => by
    rw [Group.unified, resolveGroup, resolveGroup, resolveAll_unified]
theorem resolveAll_unified : ∀ es : List Expression,
    r.resolveAll (Expression.unifiedAll es) = r.resolveAll es
  | [] => by rw [Expression.unifiedAll]
  | e :: es => by
    rw [Expression.unifiedAll, resolveAll, resolveAll, resolve_unified, resolveAll_unified]
end

end Resolver

/-! ### Inputs -/

theorem Arena.behind_unified {a a' : Arena} (h : a'.groups = a.groups.map GroupNode.unified)
    (content : List Char) (groups : List Nat) (position : Nat) :
    a'.behind content groups position = a.behind content groups position := by
  induction content generalizing groups position with
  | nil => rfl
  | cons c content ih =>
    unfold Arena.behind
    split
    · rcases groups with _ | ⟨g, groups⟩
      · rfl
      · simp only [h, List.getElem?_map]
        rcases a.groups[g]? with _ | group
        · rfl
        · exact ih groups _
    · exact ih groups _

theorem Arena.realPosition_unified {a a' : Arena} (hexpr : a'.expressions = a.expressions)
    (hgroups : a'.groups = a.groups.map GroupNode.unified) (id offset : Nat) :
    a'.realPosition id offset = a.realPosition id offset := by
  rw [realPosition, realPosition, hexpr]
  rcases a.expressions[id]? with _ | e
  · rfl
  · exact behind_unified hgroups _ _ _

namespace Tree

variable {settings : Settings} {raw : String} {t t' : Tree}

theorem exists_ofRaw_unified (h : ofRaw settings raw = .ok t) :
    ∃ t', ofRaw settings (unifyBrackets raw) = .ok t' ∧ t'.root = t.root.unified := by
  obtain ⟨htext, hroot⟩ := ofRaw_eq_ok_iff.mp h
  have hb : ¬ raw.toList.all isBlank := by
    intro hb
    rw [Text.ofRaw_eq_error hb] at htext
    cases htext
  rw [← all_isBlank_unifyBrackets] at hb
  obtain ⟨text, ht, hs⟩ := Text.ofRaw_eq_ok hb
  refine ⟨⟨text, t.root.unified⟩, ofRaw_eq_ok_iff.mpr ⟨ht, ?_⟩, rfl⟩
  show t.root.unified.Spelled settings.maxDepth 0 text.stripped
  rw [hs, strippedChars_unifyBrackets, ← Text.stripped_ofRaw htext]
  exact hroot.unified

theorem arena_of_ofRaw (h : ofRaw settings raw = .ok t) :
    Arena.ofRawTokens settings raw = .ok t.arena := by
  rw [Arena.ofRawTokens_eq, Arena.ofRaw_eq_map, h]
  rfl

theorem outline_unified (h : t'.root = t.root.unified) : t'.outline = t.outline.unified := by
  rw [outline, outline, h, Outline.ofExpression_unified]

theorem arena_expressions_unified (h : t'.root = t.root.unified) :
    t'.arena.expressions = t.arena.expressions := by
  rw [arena, arena, outline_unified h]
  show (t.outline.expressions.map ExpressionRow.unified).map ExpressionRow.node = _
  rw [List.map_map]
  exact List.map_congr_left fun row _ => row.node_unified

theorem arena_groups_unified (h : t'.root = t.root.unified) :
    t'.arena.groups = t.arena.groups.map GroupNode.unified := by
  rw [arena, arena, outline_unified h]
  show (t.outline.groups.map GroupRow.unified).map GroupRow.node = _
  rw [List.map_map, List.map_map]
  exact List.map_congr_left fun row _ => row.node_unified

/-- An input that has a tree has one with round brackets in place of all others as well. Both arenas
have the same expressions, and the same groups but for their tokens, so an offset in the content of an
expression has the same position in both; and whatever the functions and the reader of numbers, both
trees have the same formula, or the same fault but for the drawing. -/
theorem ofRaw_unified (h : ofRaw settings raw = .ok t) :
    ∃ t', ofRaw settings (unifyBrackets raw) = .ok t' ∧
      (Arena.ofRawTokens settings raw = .ok t.arena ∧
        Arena.ofRawTokens settings (unifyBrackets raw) = .ok t'.arena) ∧
      (t'.arena.expressions = t.arena.expressions ∧
        t'.arena.groups = t.arena.groups.map GroupNode.unified ∧ t'.arena.root = t.arena.root) ∧
      (∀ i offset, t'.arena.realPosition i offset = t.arena.realPosition i offset) ∧
      ∀ (r : Resolver) (settings' : Settings),
        seen Report.undrawn id (r.ofTree settings' t') =
          seen Report.undrawn id (r.ofTree settings' t) := by
  obtain ⟨t', h', hroot⟩ := exists_ofRaw_unified h
  have hexpr := arena_expressions_unified hroot
  have hgroups := arena_groups_unified hroot
  refine ⟨t', h', ⟨arena_of_ofRaw h, arena_of_ofRaw h'⟩, ⟨hexpr, hgroups, rfl⟩,
    Arena.realPosition_unified hexpr hgroups, fun r settings' => ?_⟩
  exact r.seen_ofTree_of_resolve settings' (by rw [hroot, r.resolve_unified])

/-- A call with two kinds of brackets. -/
theorem ofRaw_unified_call :
    unifyBrackets "2*f[1,\x7bx\x7d]" = "2*f(1,(x))" ∧
    ∃ t t', ofRaw {} "2*f[1,\x7bx\x7d]" = .ok t ∧ ofRaw {} "2*f(1,(x))" = .ok t' ∧
      t.arena.groups.map GroupNode.opening = ['[', '\x7b'] ∧
      t'.arena.expressions = t.arena.expressions ∧
      t'.arena.groups = t.arena.groups.map GroupNode.unified ∧
      seen Report.undrawn id (Resolver.standard.ofTree {} t') =
        seen Report.undrawn id (Resolver.standard.ofTree {} t) := by
  have hraw : unifyBrackets "2*f[1,\x7bx\x7d]" = "2*f(1,(x))" := by decide
  have openings : (ofRaw {} "2*f[1,\x7bx\x7d]").toOption.map
      (fun t => t.arena.groups.map GroupNode.opening) = some ['[', '\x7b'] := by decide +kernel
  rcases h : ofRaw {} "2*f[1,\x7bx\x7d]" with report | t
  · rw [h] at openings
    cases openings
  · rw [h] at openings
    obtain ⟨t', h', -, ⟨hexpr, hgroups, -⟩, -, hseen⟩ := ofRaw_unified h
    exact ⟨hraw, t, t', rfl, hraw ▸ h', Option.some.inj openings, hexpr, hgroups, hseen _ _⟩

end Tree

end Reckon
