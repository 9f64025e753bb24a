import Mathlib
import Reckon.Calculator
import Reckon.Proofs.Builder
import Reckon.Proofs.Tokens
import Reckon.Proofs.Tree

/-!
# Layout has no meaning

Gaps and line breaks are taken out of an input before anything else is done with it, and all that
keeps a trace of them is the line that is drawn and where on it the characters stand. So two inputs
with the same characters otherwise have the same outcome at every stage, as it is seen without the
drawing and the line: `compact` leaves the line out of a value, `undrawn` the drawing out of a fault,
and `seen` is an outcome of either kind. Stages that agree in this way agree one after the other
(`seen_bind`).
-/

namespace Reckon

/-! ### Outcomes as they are seen -/

section
variable {ε ε' δ δ' α β γ γ' : Type}

/-- An outcome of which `f` shows the fault and `g` the value. -/
def seen (f : ε → δ) (g : α → β) : Except ε α → Except δ β
  | .error fault => .error (f fault)
  | .ok x => .ok (g x)

variable {f : ε → δ} {g : α → γ} {m n : Except ε α}

theorem seen_eq_seen (h : seen f g m = seen f g n) :
    (∃ fault fault', m = .error fault ∧ n = .error fault' ∧ f fault = f fault') ∨
      ∃ x y, m = .ok x ∧ n = .ok y ∧ g x = g y := by
  rcases m with fault | x <;> rcases n with fault' | y
  · exact .inl ⟨fault, fault', rfl, rfl, Except.error.inj h⟩
  · cases h
  · cases h
  · exact .inr ⟨x, y, rfl, rfl, Except.ok.inj h⟩

theorem seen_bind {g' : β → γ'} {k l : α → Except ε β} (h : seen f g m = seen f g n)
    (hk : ∀ x y, g x = g y → seen f g' (k x) = seen f g' (l y)) :
    seen f g' (m >>= k) = seen f g' (n >>= l) := by
  obtain ⟨fault, fault', rfl, rfl, hf⟩ | ⟨x, y, rfl, rfl, hg⟩ := seen_eq_seen h
  · exact congrArg Except.error hf
  · exact hk x y hg

theorem seen_mapError {p q : ε → ε'} {f' : ε' → δ'} (h : seen f g m = seen f g n)
    (hp : ∀ fault fault', f fault = f fault' → f' (p fault) = f' (q fault')) :
    seen f' g (m.mapError p) = seen f' g (n.mapError q) := by
  obtain ⟨fault, fault', rfl, rfl, hf⟩ | ⟨x, y, rfl, rfl, hg⟩ := seen_eq_seen h
  · exact congrArg Except.error (hp fault fault' hf)
  · exact congrArg Except.ok hg

theorem seen_map {k l : α → β} {g' : β → γ'} (h : seen f g m = seen f g n)
    (hk : ∀ x y, g x = g y → g' (k x) = g' (l y)) :
    seen f g' (m.map k) = seen f g' (n.map l) := by
  obtain ⟨fault, fault', rfl, rfl, hf⟩ | ⟨x, y, rfl, rfl, hg⟩ := seen_eq_seen h
  · exact congrArg Except.error hf
  · exact congrArg Except.ok (hk x y hg)

end

/-! ### Without the drawing -/

/-- The report with nothing drawn where it has a drawing. -/
def Report.undrawn {Cause : Type} (r : Report Cause) : Report Cause :=
  { r with diagnostic := r.diagnostic.map fun _ => "" }

def Failure.undrawn : Failure → Failure
  | parse r => parse r.undrawn
  | resolve r => resolve r.undrawn
  | evaluate fault => evaluate fault

/-! ### Without the line -/

/-- The text as if it had been typed without gaps. -/
def Text.compact (t : Text) : Text := ⟨t.stripped, t.stripped, List.range t.length⟩

def Tree.compact (t : Tree) : Tree := { t with text := t.text.compact }

def Arena.compact (a : Arena) : Arena := { a with text := a.text.compact }

def Calculation.compact (c : Calculation) : Calculation := { c with tree := c.tree.compact }

theorem Tree.arena_compact (t : Tree) : t.arena.compact = t.compact.arena := rfl

/-! ### Texts -/

/-- There are more blanks than those that are taken out, but none of the others can go missing. -/
theorem all_isBlank_strippedChars (raw : String) :
    (strippedChars raw).all isBlank = raw.toList.all isBlank := by
  rw [Bool.eq_iff_iff, List.all_eq_true, List.all_eq_true]
  constructor
  · intro h c hc
    by_contra hb
    exact hb (h c (List.mem_filter.mpr ⟨hc, not_lineBreak_gap hb⟩))
  · exact fun h c hc => h c (List.mem_filter.mp hc).1

theorem Text.report_undrawn {Cause : Type} (t : Text) (settings : Settings)
    (carets : Cause → Option (List Nat)) (cause : Cause) :
    (t.report settings carets cause).undrawn = ⟨cause, (carets cause).map fun _ => ""⟩ := by
  rw [report, Report.undrawn, Option.map_map]
  rfl

theorem Text.compact_of_ofRaw {raw : String} {t : Text} (h : ofRaw raw = .ok t) : t.compact =
    ⟨strippedChars raw, strippedChars raw, List.range (strippedChars raw).length⟩ := by
  rw [compact, length_ofRaw h, stripped_ofRaw h]

theorem Text.seen_ofRaw {raw raw' : String} (h : strippedChars raw = strippedChars raw') :
    seen id Text.compact (ofRaw raw) = seen id Text.compact (ofRaw raw') := by
  have hblank : raw.toList.all isBlank = raw'.toList.all isBlank := by
    rw [← all_isBlank_strippedChars, h, all_isBlank_strippedChars]
  by_cases hb : raw.toList.all isBlank
  · rw [ofRaw_eq_error hb, ofRaw_eq_error (hblank ▸ hb)]
  · obtain ⟨t, ht, -⟩ := ofRaw_eq_ok hb
    obtain ⟨t', ht', -⟩ := ofRaw_eq_ok (hblank ▸ hb)
    rw [ht, ht', seen, seen, compact_of_ofRaw ht, compact_of_ofRaw ht', h]

/-! ### Stages -/

/-- The tree of a text depends on what is stripped of it. -/
theorem Tree.seen_ofText {t t' : Text} (h : t.compact = t'.compact) (limit : Nat) :
    seen id Tree.compact (ofText limit t) = seen id Tree.compact (ofText limit t') := by
  obtain ⟨hs, -⟩ : t.stripped = t'.stripped ∧ _ := Text.mk.inj h
  rw [ofText, ofText, Text.positionsOf, Text.positionsOf, hs]
  split
  · exact seen_map (f := id) (g := id) rfl fun x y hxy => by
      rw [compact, compact, h, show x = y from hxy]
  · rfl

/-- Trees with the same formula, or the same fault, are seen as the same. -/
theorem Resolver.seen_ofTree_of_resolve (r : Resolver) (settings : Settings) {t t' : Tree}
    (h : r.resolve t.root = r.resolve t'.root) :
    seen Report.undrawn id (r.ofTree settings t) = seen Report.undrawn id (r.ofTree settings t') := by
  rw [ofTree, ofTree, h]
  refine seen_mapError (f := id) rfl fun fault fault' hf => ?_
  rw [Text.report_undrawn, Text.report_undrawn, show fault = fault' from hf]

/-- The formula of a tree depends on its root. -/
theorem Resolver.seen_ofTree (r : Resolver) (settings : Settings) {t t' : Tree}
    (h : t.compact = t'.compact) :
    seen Report.undrawn id (r.ofTree settings t) = seen Report.undrawn id (r.ofTree settings t') := by
  obtain ⟨-, hroot⟩ : _ ∧ t.root = t'.root := Tree.mk.inj h
  exact r.seen_ofTree_of_resolve settings (congrArg r.resolve hroot)

theorem Calculation.evaluate_eq {c c' : Calculation} (h : c.compact = c'.compact)
    (context : Context) : c.evaluate context = c'.evaluate context := by
  obtain ⟨-, hformula, hsettings⟩ : _ ∧ c.formula = c'.formula ∧ c.settings = c'.settings :=
    Calculation.mk.inj h
  rw [evaluate, evaluate, hformula, hsettings]

section
variable {raw raw' : String} (h : strippedChars raw = strippedChars raw')
include h

theorem Tree.seen_ofRaw (settings : Settings) :
    seen Report.undrawn Tree.compact (ofRaw settings raw) =
      seen Report.undrawn Tree.compact (ofRaw settings raw') := by
  rw [ofRaw, ofRaw]
  obtain ⟨fault, fault', hm, hn, hf⟩ | ⟨t, t', hm, hn, ht⟩ := seen_eq_seen (Text.seen_ofRaw h)
  · rw [hm, hn, show fault = fault' from hf]
  · rw [hm, hn]
    refine seen_mapError (seen_ofText ht _) fun fault fault' hf => ?_
    rw [Text.report_undrawn, Text.report_undrawn, show fault = fault' from hf]

theorem Arena.seen_ofRawTokens (settings : Settings) :
    seen Report.undrawn Arena.compact (ofRawTokens settings raw) =
      seen Report.undrawn Arena.compact (ofRawTokens settings raw') := by
  rw [ofRawTokens_eq, ofRawTokens_eq, ofRaw_eq_map, ofRaw_eq_map]
  refine seen_map (Tree.seen_ofRaw h settings) fun t t' ht => ?_
  rw [Tree.arena_compact, Tree.arena_compact, ht]

theorem Calculation.seen_ofRaw (settings : Settings) (resolver : Resolver) :
    seen Failure.undrawn Calculation.compact (ofRaw settings resolver raw) =
      seen Failure.undrawn Calculation.compact (ofRaw settings resolver raw') := by
  have htree : seen Failure.undrawn Tree.compact ((Tree.ofRaw settings raw).mapError .parse) =
      seen Failure.undrawn Tree.compact ((Tree.ofRaw settings raw').mapError .parse) :=
    seen_mapError (Tree.seen_ofRaw h settings) fun _ _ hf => congrArg Failure.parse hf
  refine seen_bind htree fun t t' ht => ?_
  have hformula : seen Failure.undrawn id ((resolver.ofTree settings t).mapError .resolve) =
      seen Failure.undrawn id ((resolver.ofTree settings t').mapError .resolve) :=
    seen_mapError (resolver.seen_ofTree settings ht) fun _ _ hf => congrArg Failure.resolve hf
  refine seen_bind hformula fun f f' hff => ?_
  show Except.ok (Calculation.mk t.compact f settings) = .ok (Calculation.mk t'.compact f' settings)
  rw [ht, show f = f' from hff]

theorem Calculation.seen_evaluate (settings : Settings) (resolver : Resolver) (context : Context) :
    seen Failure.undrawn id (ofRaw settings resolver raw >>= fun c => c.evaluate context) =
      seen Failure.undrawn id (ofRaw settings resolver raw' >>= fun c => c.evaluate context) :=
  seen_bind (seen_ofRaw h settings resolver) fun _ _ hc =>
    congrArg (seen Failure.undrawn id) (evaluate_eq hc context)

/-- Inputs that differ in gaps and line breaks only have the same outcome at every stage, whatever the
settings, the functions, the reader of numbers and the values of the variables: the same tree and the
same arena, the same formula, the same value, or a fault with the same fields. Only the drawing, the
line that is drawn and the offsets on it can differ. -/
theorem outcome_of_stripped (settings : Settings) (resolver : Resolver) (context : Context) :
    seen Report.undrawn Tree.compact (Tree.ofRaw settings raw) =
      seen Report.undrawn Tree.compact (Tree.ofRaw settings raw') ∧
    seen Report.undrawn Arena.compact (Arena.ofRawTokens settings raw) =
      seen Report.undrawn Arena.compact (Arena.ofRawTokens settings raw') ∧
    seen Failure.undrawn Calculation.compact (Calculation.ofRaw settings resolver raw) =
      seen Failure.undrawn Calculation.compact (Calculation.ofRaw settings resolver raw') ∧
    seen Failure.undrawn id
        (Calculation.ofRaw settings resolver raw >>= fun c => c.evaluate context) =
      seen Failure.undrawn id
        (Calculation.ofRaw settings resolver raw' >>= fun c => c.evaluate context) ∧
    seen Failure.undrawn id (calculate raw context) =
      seen Failure.undrawn id (calculate raw' context) :=
  ⟨Tree.seen_ofRaw h settings, Arena.seen_ofRawTokens h settings,
    Calculation.seen_ofRaw h settings resolver,
    Calculation.seen_evaluate h settings resolver context,
    Calculation.seen_evaluate h {} .standard context⟩

end

/-- A product on two lines, and one of its factors not closed. -/
theorem outcome_of_stripped_product :
    strippedChars "2 *\n( 3+x )" = strippedChars "2*(3 +\tx)" ∧
    seen Failure.undrawn id (calculate "2 *\n( 3+x )" (.ofList [("x", .ofInt 1)])) =
      seen Failure.undrawn id (calculate "2*(3 +\tx)" (.ofList [("x", .ofInt 1)])) ∧
    strippedChars "2 * (\r\n3" = strippedChars "2*( 3" ∧
    seen Report.undrawn Tree.compact (Tree.ofRaw {} "2 * (\r\n3") =
      seen Report.undrawn Tree.compact (Tree.ofRaw {} "2*( 3") :=
  have h : strippedChars "2 *\n( 3+x )" = strippedChars "2*(3 +\tx)" := by decide
  have h' : strippedChars "2 * (\r\n3" = strippedChars "2*( 3" := by decide
  ⟨h, (outcome_of_stripped h {} .standard _).2.2.2.2, h',
    (outcome_of_stripped h' {} .standard fun _ => none).1⟩

end Reckon
