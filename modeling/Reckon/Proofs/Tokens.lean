import Mathlib
import Reckon.Proofs.Bytes
import Reckon.Proofs.Component
import Reckon.Proofs.Spelling
import Reckon.Tree.Tokens

/-!
# Building token by token is building character by character

The tokens of a text are its brackets and commas, each for itself (`Pattern.tokensFrom_set_cons`). Characters
that are none of these can be added to the open expression in one piece or one by one
(`Builder.content_eq_run`), and a token is read as its character is. So the arena is the same either
way (`Arena.ofRawTokens_eq`). All cuts are made where a start of the text ends, so that none of them
fails.
-/

namespace Reckon

/-! ### The tokens -/

/-- Is it a bracket or a comma? -/
def isToken (c : Char) : Bool :=
  c == separator || (Bracket.ofOpening c).isSome || (Bracket.ofClosing c).isSome

def tokenSet : CharSet :=
  ⟨false, [('\x7b', '\x7b'), ('\x7d', '\x7d'), ('(', '('), (')', ')'), ('[', '['), (']', ']'),
    (',', ',')]⟩

theorem aggregationToken_component : Form.aggregationToken.component.pattern = .set tokenSet := by
  decide +kernel

theorem isToken_iff {c : Char} :
    isToken c ↔ c = separator ∨ ∃ b : Bracket, c = b.opening ∨ c = b.closing := by
  simp only [isToken, Bool.or_eq_true, beq_iff_eq, Option.isSome_iff_exists, or_assoc]
  refine or_congr_right ?_
  rw [← exists_or]
  constructor
  · rintro ⟨b, h | h⟩
    exacts [⟨b, .inl (ofOpening_eq_some h)⟩, ⟨b, .inr (ofClosing_eq_some h)⟩]
  · rintro ⟨b, rfl | rfl⟩
    exacts [⟨b, .inl (Bracket.ofOpening_opening b)⟩, ⟨b, .inr (Bracket.ofClosing_closing b)⟩]

theorem mem_tokenSet (c : Char) : tokenSet.mem c ↔ isToken c := by
  rw [isToken_iff]
  refine (CharSet.mem_singles ['\x7b', '\x7d', '(', ')', '[', ']', ','] c).trans ?_
  simp only [List.mem_cons, List.not_mem_nil, or_false]
  constructor
  · rintro (h | h | h | h | h | h | h)
    exacts [.inr ⟨.curly, .inl h⟩, .inr ⟨.curly, .inr h⟩, .inr ⟨.round, .inl h⟩,
      .inr ⟨.round, .inr h⟩, .inr ⟨.square, .inl h⟩, .inr ⟨.square, .inr h⟩, .inl h]
  · rintro (rfl | ⟨b, rfl | rfl⟩)
    · decide
    all_goals cases b <;> decide

namespace Pattern

variable {s : CharSet} {pos : Nat} {last : Option Nat}

theorem stopAt_set_nil : (set s).stopAt [] pos = none := by rfl

theorem stopAt_set_cons (c : Char) (cs : List Char) :
    (set s).stopAt (c :: cs) pos = if s.mem c then some (pos + 1) else none := by
  rw [stopAt, find, run, Cursor.next]
  by_cases h : s.mem c <;> simp [h]

theorem tokensFrom_set_nil : tokensFrom (set s).stopAt [] pos 0 last = [] := by
  rw [tokensFrom, stopAt_set_nil]

theorem tokensFrom_set_cons (c : Char) (cs : List Char) :
    tokensFrom (set s).stopAt (c :: cs) pos 0 last =
      if s.mem c then ⟨pos, pos + 1⟩ :: tokensFrom (set s).stopAt cs (pos + 1) 0 (some (pos + 1))
      else tokensFrom (set s).stopAt cs (pos + 1) 0 last := by
  rw [tokensFrom, stopAt_set_cons]
  by_cases h : s.mem c
  · simp [h]
  · simp [h]

end Pattern

namespace Builder

variable {limit position id : Nat} {b : Builder} {c : Char} {cs u v w : List Char}

/-! ### Content -/

theorem append_cons (e : ExpressionNode) (position : Nat) (c : Char) (cs : List Char) :
    e.append position (c :: cs) = e.append position [c] >>= (·.append (position + 1) cs) := by
  rw [ExpressionNode.append, ExpressionNode.append]
  by_cases h : e.isAppendable position
  · obtain ⟨hstate, hstop⟩ := Bool.and_eq_true_iff.mp h
    have hstop : position = e.stop := by simpa using hstop
    have later : ({ e with content := e.content ++ [c], stop := e.stop + 1 } :
        ExpressionNode).isAppendable (position + 1) := by
      rw [ExpressionNode.isAppendable, hstate, hstop]
      simp
    rw [if_pos h, if_pos h]
    show _ = ExpressionNode.append _ _ _
    rw [ExpressionNode.append, List.length_singleton, if_pos later]
    simp [Nat.add_comm cs.length, Nat.add_assoc]
  · rw [if_neg h, if_neg h]
    rfl

theorem updateExpression_bind (b : Builder) (id : Nat)
    (f g : ExpressionNode → Except ParseFault ExpressionNode) :
    (b.updateExpression id f >>= fun b' => b'.updateExpression id g) =
      b.updateExpression id fun e => f e >>= g := by
  rw [updateExpression, updateExpression]
  rcases he : b.expressions[id]? with _ | e
  · rfl
  · have hid : id < b.expressions.length := (List.getElem?_eq_some_iff.mp he).1
    simp only
    rcases f e with fault | e'
    · rfl
    · show updateExpression _ id g = (g e').map _
      rw [updateExpression]
      simp only [List.getElem?_set_self hid, List.set_set]

theorem current_currentExpression (b : Builder) (position : Nat) :
    (b.currentExpression position).2.current = some (b.currentExpression position).1 := by
  rw [currentExpression]
  split
  · next id h => exact h
  · rfl

theorem current_updateExpression {f : ExpressionNode → Except ParseFault ExpressionNode} {b' : Builder}
    (h : b.updateExpression id f = .ok b') : b'.current = b.current := by
  rw [updateExpression] at h
  split at h
  · cases h
  · obtain ⟨e, -, rfl⟩ := map_eq_ok h
    rfl

theorem content_cons (b : Builder) (position : Nat) (c : Char) (cs : List Char) :
    b.content position (c :: cs) =
      b.plain position c >>= fun b' => b'.content (position + 1) cs := by
  rcases cs with _ | ⟨d, cs⟩
  · show b.plain position c = b.plain position c >>= fun b' => .ok b'
    rcases b.plain position c with fault | b' <;> rfl
  · show (b.currentExpression position).2.updateExpression (b.currentExpression position).1
      (·.append position (c :: d :: cs)) = _
    have pieces : (fun e : ExpressionNode => e.append position (c :: d :: cs)) =
        fun e => e.append position [c] >>= (·.append (position + 1) (d :: cs)) :=
      funext fun e => append_cons e position c (d :: cs)
    rw [pieces, ← updateExpression_bind]
    refine bind_congr_ok fun b' hb' => ?_
    -- the expression is still the open one, so the rest is added to it
    have hcurrent := (current_updateExpression hb').trans (current_currentExpression b position)
    have hopen : b'.currentExpression (position + 1) = ((b.currentExpression position).1, b') := by
      rw [currentExpression, hcurrent]
    rw [content, hopen]
    rfl

/-- Characters that are no tokens are added one by one as they are in one piece. -/
theorem content_eq_run (hw : ∀ c ∈ w, ¬ isToken c) :
    b.content position w = run limit w position b := by
  induction w generalizing position b with
  | nil => rfl
  | cons c cs ih =>
    rw [List.forall_mem_cons] at hw
    have hstep : b.step limit position c = b.plain position c := by
      simp only [isToken, Bool.or_eq_true, beq_iff_eq, not_or, Option.isSome_iff_ne_none,
        not_not] at hw
      obtain ⟨⟨⟨hs, ho⟩, hc⟩, -⟩ := hw
      rw [step, if_neg hs, ho, hc]
    rw [content_cons, run, hstep]
    rcases b.plain position c with fault | b'
    · rfl
    · exact ih hw.2

theorem token_eq_step (hc : isToken c) : b.token limit position c = b.step limit position c := by
  rw [token, step]
  by_cases hs : c = separator
  · rw [if_pos hs, if_pos hs]
  · rw [if_neg hs, if_neg hs]
    rcases ho : Bracket.ofOpening c with _ | bracket
    · rcases hcl : Bracket.ofClosing c with _ | bracket
      · simp [isToken, hs, ho, hcl] at hc
      · rfl
    · rfl

theorem run_append (limit : Nat) (u v : List Char) (position : Nat) (b : Builder) :
    run limit (u ++ v) position b =
      run limit u position b >>= run limit v (position + u.length) := by
  induction u generalizing position b with
  | nil => rfl
  | cons c u ih =>
    rw [List.cons_append, run, run, List.length_cons, Nat.add_comm u.length, ← Nat.add_assoc]
    rcases b.step limit position c with fault | b'
    · rfl
    · exact ih (position + 1) b'

/-! ### The whole text -/

/-- A token is cut out of the text together with the characters `w` before it. -/
theorem runTokens_cons (limit : Nat) (u w v : List Char) (c : Char) (ts : List Span) (b : Builder) :
    runTokens limit (u ++ w ++ c :: v)
        (⟨byteLength (u ++ w), byteLength (u ++ w ++ [c])⟩ :: ts) (byteLength u) u.length b =
      b.content u.length w >>= fun b' => b'.token limit (u.length + w.length) c >>=
        runTokens limit (u ++ w ++ c :: v) ts (byteLength (u ++ w ++ [c]))
          (u.length + w.length + 1) := by
  have piece : sliceBytes (u ++ w ++ c :: v) (byteLength u) (byteLength (u ++ w)) = .ok w := by
    rw [List.append_assoc]
    exact sliceBytes_append u w (c :: v)
  have token : sliceBytes (u ++ w ++ c :: v) (byteLength (u ++ w)) (byteLength (u ++ w ++ [c])) =
      .ok [c] := sliceBytes_append (u ++ w) [c] v
  rw [runTokens, piece, token]
  rfl

/-- The loop behind `u`, of which the characters `w` were looked at: they hold no token. -/
theorem runTokens_eq (limit : Nat) (u w v : List Char) (last : Option Nat)
    (hw : ∀ c ∈ w, ¬ isToken c) (b : Builder) :
    runTokens limit (u ++ w ++ v)
        ((Pattern.tokensFrom (Pattern.set tokenSet).stopAt v (u ++ w).length 0 last).map
          (Span.bytes (u ++ w ++ v))) (byteLength u) u.length b =
      run limit (w ++ v) u.length b := by
  induction v generalizing u w last b with
  | nil =>
    rw [Pattern.tokensFrom_set_nil, List.map_nil, runTokens, List.append_assoc, cutAt_append,
      List.append_nil]
    exact content_eq_run hw
  | cons c v ih =>
    have htext : u ++ w ++ c :: v = u ++ w ++ [c] ++ v := by simp
    have hlength : (u ++ w ++ [c]).length = (u ++ w).length + 1 := List.length_append
    rw [Pattern.tokensFrom_set_cons]
    by_cases hc : isToken c
    · have hspan : Span.bytes (u ++ w ++ c :: v) ⟨(u ++ w).length, (u ++ w).length + 1⟩ =
          ⟨byteLength (u ++ w), byteLength (u ++ w ++ [c])⟩ := by
        rw [Span.bytes, List.take_left, htext, ← hlength, List.take_left]
      rw [if_pos ((mem_tokenSet c).mpr hc), List.map_cons, hspan, runTokens_cons, run_append,
        ← content_eq_run hw]
      refine bind_congr_ok fun b' _ => ?_
      rw [run, token_eq_step hc]
      rcases b'.step limit (u.length + w.length) c with fault | b''
      · rfl
      · have := ih (u ++ w ++ [c]) [] (some ((u ++ w).length + 1)) (List.forall_mem_nil _) b''
        rw [List.append_nil, List.nil_append, hlength, ← htext, List.length_append] at this
        rw [List.length_append]
        exact this
    · have hwc : ∀ d ∈ w ++ [c], ¬ isToken d :=
        List.forall_mem_append.mpr ⟨hw, List.forall_mem_singleton.mpr hc⟩
      have := ih u (w ++ [c]) last hwc b
      rw [← List.append_assoc u w [c], hlength, List.append_assoc w, List.singleton_append,
        ← htext] at this
      rw [if_neg (mt (mem_tokenSet c).mp hc)]
      exact this

end Builder

namespace Arena

theorem ofTokens_eq (limit : Nat) (t : Text) : ofTokens limit t = ofText limit t := by
  have tokens : aggregationTokens t.stripped =
      (Pattern.tokensFrom (Pattern.set tokenSet).stopAt t.stripped 0 0 none).map
        (Span.bytes t.stripped) := by
    rw [aggregationTokens, Component.tokens_eq, aggregationToken_component, Pattern.tokens]
  have run : Builder.runTokens limit t.stripped (aggregationTokens t.stripped) 0 0 .start =
      Builder.run limit t.stripped 0 .start := by
    rw [tokens]
    exact Builder.runTokens_eq limit [] [] t.stripped none (List.forall_mem_nil _) .start
  rcases h : Builder.run limit t.stripped 0 .start with fault | b <;>
    simp only [ofTokens, ofText, run, h]

/-- Building an arena token by token or character by character is the same. -/
theorem ofRawTokens_eq (settings : Settings) (raw : String) :
    ofRawTokens settings raw = ofRaw settings raw := by
  rw [ofRawTokens, ofRaw]
  rcases Text.ofRaw raw with fault | t
  · rfl
  · simp only [ofTokens_eq]

end Arena

end Reckon
