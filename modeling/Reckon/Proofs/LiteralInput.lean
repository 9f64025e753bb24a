import Mathlib
import Reckon.Calculator
import Reckon.Proofs.LiteralOperand
import Reckon.Proofs.Reprint

/-!
# A literal as an input

The content of a literal without a block is one operand, the number without its sign, and the sign is
a negation of it (`NumberParts.Fits.unary`); the value of a number does not depend on where its sign
is applied (`NumberParts.Fits.value_cases`). So an input that is a literal has the value of the
literal (`calculate_literal`).

The braces of a block are those of a group. What stands before them is a number of its own, the
longest there is (`Unary.longest_front`), and the group behind it is left over. Whether the number
is too long is found out first (`Resolver.exists_fault_of_block`).
-/

namespace Reckon

open Notation NumberParts

variable {negative : Bool} {whole plain : List Char} {p q : NumberParts}

/-! ### Signs -/

namespace NumberParts

/-- A number without a sign, behind one. -/
theorem Fits.unary (h : q.Fits) (hd : Digits q.integer) (negative : Bool) :
    Unary negative (.number q.entries.literal (some q)) (signChars negative ++ q.entries.literal) := by
  cases negative with
  | true => exact .negated (.number h)
  | false =>
    refine .plain (.number h) fun _ v hv => ?_
    obtain ⟨c, ds, hi⟩ := List.exists_cons_of_ne_nil h.integer_ne_nil
    rw [literal_eq, hi] at hv
    obtain ⟨rfl, -⟩ := List.cons.inj hv
    exact absurd (hd minusSign (hi ▸ List.mem_cons_self ..)) (by decide)

/-- Without its sign a number is a number. -/
theorem Fits.unsigned (h : p.Fits) (hi : p.integer = signChars negative ++ whole) :
    Fits { p with integer := whole } := by
  cases negative with
  | true => exact h.minus hi
  | false =>
    obtain ⟨form, int, f, b, e⟩ := p
    obtain rfl : int = whole := hi
    exact h

theorem literal_signed (hi : p.integer = signChars negative ++ whole) :
    p.entries.literal =
      signChars negative ++ ({ p with integer := whole } : NumberParts).entries.literal := by
  rw [literal_eq, literal_eq, hi, List.append_assoc]

theorem Fits.exists_exponent (h : p.Fits) : ∃ e, Literal.OptionalExponent p.exponent e := by
  rcases he : p.exponent with _ | w
  · exact ⟨0, .none⟩
  · rcases h.exponent_integer w he with (hw | ⟨v, rfl, hv⟩) | rfl
    · exact ⟨_, .some (.unsigned hw.digits hw.ne_nil)⟩
    · exact ⟨_, .some (.minus hv.digits hv.ne_nil)⟩
    · exact ⟨_, .some (.unsigned (fun c hc => List.mem_singleton.mp hc ▸ rfl) (List.cons_ne_nil _ _))⟩

/-- It does not matter where the sign is applied. -/
theorem Fits.value_cases (h : p.Fits) (hi : p.integer = signChars negative ++ whole)
    (hw : Unsigned whole) :
    (∃ x, value { p with integer := whole } = .ok x ∧
      p.value = .ok (.ofRat (signFactor negative * x.toRat))) ∨
    ∃ fault fault', value { p with integer := whole } = .error fault ∧ p.value = .error fault' := by
  obtain ⟨e, he⟩ := h.exists_exponent
  have outcome := fun negative => Fraction.exists_ofParts negative hw.digits hw.ne_nil
    h.optionalDigits.digits h.block_digits he
  obtain ⟨reason, signed⟩ := outcome negative
  obtain ⟨reason', unsigned⟩ := outcome false
  rw [← hi] at signed
  by_cases small : (p.plain.getD []).length + (p.repeating.getD []).length ≤ maxLiteralExponent ∧
      e.natAbs ≤ maxLiteralExponent
  · rw [if_pos small] at signed unsigned
    refine .inl ⟨_, unsigned, signed.trans ?_⟩
    have positive : signFactor false = 1 := rfl
    rw [Fraction.toRat_ofRat, positive, Int.cast_one, one_mul, mul_assoc]
  · rw [if_neg small] at signed unsigned
    exact .inr ⟨_, _, unsigned, signed⟩

end NumberParts

/-- A number behind a sign is the number with that sign. -/
theorem Formula.evaluate_signed (settings : Settings) (context : Context) (negative : Bool)
    (x : Operand) (n : Nat) (y : Fraction) :
    Formula.evaluate settings context (Resolver.signs ⟨none, negative, x, n⟩ ++ [.number y]) =
      .ok (.ofRat (signFactor negative * y.toRat)) := by
  have value : Formula.evaluate settings context
      (Resolver.signs ⟨none, negative, x, n⟩ ++ [.number y]) =
        .ok (if negative then -y else y).reduce := by
    cases negative <;>
      simp [Formula.evaluate, Resolver.signs, Evaluation.run, Evaluation.Machine.start,
        Evaluation.Machine.operand, Evaluation.Machine.finish, Evaluation.Machine.drain]
  rw [value, Fraction.reduce_eq_ofRat]
  cases negative with
  | false =>
    have positive : signFactor false = 1 := rfl
    rw [if_neg Bool.false_ne_true, positive, Int.cast_one, one_mul]
  | true =>
    have minus : signFactor true = -1 := rfl
    rw [if_pos rfl, minus, Fraction.toRat_neg, Int.cast_neg, Int.cast_one, neg_one_mul]

/-! ### In front of a block -/

/-- No literal starts in front of a placeholder and goes beyond it, or ends at a point. -/
theorem NumberParts.Fits.length_le_of_prefix (h : p.Fits) {r t : List Char}
    (he : whole ++ '.' :: (plain ++ placeholder :: r) = p.entries.literal ++ t) :
    p.entries.literal.length ≤ (whole ++ fractionText plain []).length := by
  have noMark := h.placeholder_not_mem
  have split : whole ++ '.' :: (plain ++ placeholder :: r) =
      (whole ++ '.' :: plain) ++ placeholder :: r := by simp
  rw [split] at he
  -- the literal ends at the placeholder at the latest
  have before : ∃ u, whole ++ '.' :: plain = p.entries.literal ++ u := by
    rcases List.append_eq_append_iff.mp he with ⟨u, hu, hr⟩ | ⟨u, hu, -⟩
    · cases u with
      | nil => exact ⟨[], by rw [hu, List.append_nil, List.append_nil]⟩
      | cons c u =>
        obtain ⟨rfl, -⟩ := List.cons.inj hr
        exact absurd (hu ▸ List.mem_append_right _ (List.mem_cons_self ..)) noMark
    · exact ⟨u, hu⟩
  obtain ⟨u, hu⟩ := before
  have length := congrArg List.length hu
  by_cases hplain : plain = []
  · subst hplain
    rcases List.eq_nil_or_concat u with rfl | ⟨u, c, rfl⟩
    · rw [List.append_nil] at hu
      exact absurd hu.symm (h.literal_not_last (by decide) (by decide))
    · rw [fractionText, if_pos ⟨rfl, rfl⟩]
      simp only [List.length_append, List.concat_eq_append, List.length_singleton,
        List.length_nil] at length ⊢
      omega
  · rw [fractionText, if_neg fun h => hplain h.1, blockText, if_pos rfl, List.append_nil]
    rw [length, List.length_append]
    omega

namespace NumberParts

variable {fraction : Option (List Char)}

/-- The parts of the number that stands in front of a block, without its sign. -/
def front (whole : List Char) (fraction : Option (List Char)) : NumberParts :=
  ⟨formOf fraction.isSome false false, whole, fraction, none, none⟩

theorem front_fits (hw : Unsigned whole) (hf : OptionalDigits fraction) :
    (front whole fraction).Fits := by
  cases fraction with
  | none => exact ⟨hw.elim (fun h => .inl (.inl h)) .inr, rfl, rfl, rfl⟩
  | some ds => exact ⟨.inl hw, ⟨ds, rfl, hf ds rfl⟩, rfl, rfl⟩

theorem literal_front (whole : List Char) (fraction : Option (List Char)) :
    (front whole fraction).entries.literal = whole ++ fractionText (fraction.getD []) [] := by
  rw [literal_eq, front]
  simp [exponentText]

theorem exists_behind_front (whole : List Char) (fraction : Option (List Char)) (r : List Char) :
    ∃ c rest, whole ++ '.' :: (fraction.getD [] ++ placeholder :: r) =
      (front whole fraction).entries.literal ++ c :: rest ∧ ∀ o : Operator, c ≠ o.symbol := by
  rw [literal_front]
  by_cases hf : fraction.getD [] = []
  · refine ⟨'.', placeholder :: r, ?_, fun o => by cases o <;> decide⟩
    rw [hf, fractionText, if_pos ⟨rfl, rfl⟩, List.append_nil]
    rfl
  · refine ⟨placeholder, r, ?_, fun o => by cases o <;> decide⟩
    rw [fractionText, if_neg fun h => hf h.1, blockText, if_pos rfl, List.append_nil,
      List.append_assoc, List.cons_append]

/-- It has a value unless it has too many digits. -/
theorem exists_value_front (hw : Unsigned whole) (hf : OptionalDigits fraction) :
    ∃ x reason, (front whole fraction).value =
      if (fraction.getD []).length ≤ maxLiteralExponent then .ok x else .error (.domain reason) := by
  obtain ⟨reason, value⟩ := Fraction.exists_ofParts false hw.digits hw.ne_nil hf.digits
    (nofun : Digits []) .none
  simp only [List.length_nil, Nat.add_zero, Int.natAbs_zero, Nat.zero_le, and_true] at value
  exact ⟨_, reason, value⟩

end NumberParts

namespace Unary

/-- Behind a sign a text that starts with a digit is a number. -/
theorem exists_number {g : Bool} {x : Operand} {v w t : List Char} (hw : Digits whole)
    (hne : whole ≠ []) (h : Unary g x w) (he : signChars negative ++ (whole ++ v) = w ++ t) :
    ∃ q : NumberParts, q.Fits ∧ w = signChars negative ++ q.entries.literal := by
  have number {u : List Char} (hx : x.Spelled u) (hu : whole ++ v = u ++ t) :
      ∃ q : NumberParts, q.Fits ∧ u = q.entries.literal := by
    obtain ⟨c, u, rfl, hc⟩ := hx.begins
    obtain ⟨d, ds, rfl⟩ := List.exists_cons_of_ne_nil hne
    obtain ⟨rfl, -⟩ := List.cons.inj hu
    have digit := isSigned_of_isDigit (hw d (List.mem_cons_self ..))
    generalize hs : d :: u = s at hx
    cases hx with
    | group => exact absurd digit (by rw [beq_iff_eq.mp hc]; decide)
    | call | var => exact absurd digit (not_isSigned hc)
    | number hq => exact ⟨_, hq, rfl⟩
  cases negative with
  | true =>
    obtain ⟨c, u, rfl⟩ := List.exists_cons_of_ne_nil h.ne_nil
    obtain ⟨rfl, hu⟩ := List.cons.inj he
    obtain ⟨q, hq, rfl⟩ := number h.minus.2 hu
    exact ⟨q, hq, rfl⟩
  | false =>
    have hhead : w.head? ≠ some minusSign := by
      intro hm
      obtain ⟨u, rfl⟩ := List.head?_eq_some_iff.mp hm
      obtain ⟨d, ds, rfl⟩ := List.exists_cons_of_ne_nil hne
      obtain ⟨rfl, -⟩ := List.cons.inj he
      exact absurd (hw minusSign (List.mem_cons_self ..)) (by decide)
    obtain ⟨q, hq, rfl⟩ := number (h.spelled hhead).2 he
    exact ⟨q, hq, rfl⟩

/-- In front of a block the number is the longest operand. -/
theorem longest_front {fraction : Option (List Char)} (hw : Unsigned whole)
    (hf : OptionalDigits fraction) (negative : Bool) (r : List Char) :
    Longest negative (.number (front whole fraction).entries.literal (some (front whole fraction)))
      (signChars negative ++ (front whole fraction).entries.literal)
      (signChars negative ++ (whole ++ '.' :: (fraction.getD [] ++ placeholder :: r))) := by
  refine ⟨(front_fits hw hf).unary hw.digits negative, fun g x w t hsplit hx => ?_⟩
  obtain ⟨q, hq, rfl⟩ := exists_number hw.digits hw.ne_nil hx hsplit
  rw [List.append_assoc] at hsplit
  rw [List.length_append, List.length_append, literal_front]
  exact Nat.add_le_add_left (hq.length_le_of_prefix (List.append_cancel_left hsplit)) _

end Unary

namespace Resolver

variable {r : Resolver} {e : Expression} {t : List Char}

/-- Whether a number is valid is found out before what is behind it. -/
theorem resolve_number {n stop : Nat}
    (hr : Reading.ofContent e.content =
      .ok (some ⟨[⟨none, negative, .number t (some q), n⟩], stop⟩)) :
    r.resolve e = r.numbers q.entries >>= fun x =>
      if stop < e.content.length then .error (.strayContent (e.realPosition stop))
      else .ok (signs ⟨none, negative, .number t (some q), n⟩ ++ [.number x]) := by
  rw [resolve_eq, formula, hr]
  simp only [elements, element]
  cases r.numbers q.entries <;> rfl

/-- Content that is a number. -/
theorem resolve_unary (hm : e.Marked) (h : Unary negative (.number t (some q)) e.content) :
    r.resolve e = (r.numbers q.entries).map fun x =>
      signs ⟨none, negative, .number t (some q), negative.toNat⟩ ++ [.number x] := by
  have content := Content.mk h .nil
  rw [List.append_nil] at content
  rw [resolve_number ((ofContent_eq_iff hm).mpr ⟨content, rfl⟩).1]
  simp only [lt_irrefl, if_false]
  rfl

/-- Content that starts with a number and then has no operator. -/
theorem resolve_longest (hm : e.Marked) {w rest : List Char} {c : Char}
    (h : Unary.Longest negative (.number t (some q)) w e.content)
    (hc : e.content = w ++ c :: rest) (ho : ∀ o : Operator, c ≠ o.symbol) :
    r.resolve e = r.numbers q.entries >>= fun _ =>
      .error (.strayContent (e.realPosition w.length)) := by
  have nothing : Farthest (Pairs w.length) [] [] (c :: rest) :=
    Pairs.farthest_nil fun o _ _ _ _ he => absurd (List.cons.inj he).1 (ho o)
  have reading := Reading.ofContent_eq hm.brace_not_mem (Content.farthest h hc nothing)
  have short : w.length < e.content.length := by
    rw [hc, List.length_append, List.length_cons]
    omega
  rw [List.append_nil] at reading
  rw [resolve_number reading]
  simp only [short, if_true]

/-- A number and the placeholder of a block behind it. The number is resolved before the block is
found. -/
theorem exists_fault_of_block (lookup : Lookup) {fraction : Option (List Char)} {rest : List Char}
    (hm : e.Marked) (hw : Unsigned whole) (hf : OptionalDigits fraction)
    (hc : e.content = signChars negative ++ (whole ++ '.' :: (fraction.getD [] ++ placeholder :: rest))) :
    ∃ fault, resolve ⟨lookup, .exact⟩ e = .error fault ∧
      if (fraction.getD []).length ≤ maxLiteralExponent then ∃ position, fault = .strayContent position
      else ∃ literal reason, fault = .invalidNumber literal reason := by
  have longest := Unary.longest_front hw hf negative rest
  obtain ⟨c, behind, hbehind, ho⟩ := exists_behind_front whole fraction rest
  have split : e.content = (signChars negative ++ _) ++ c :: behind :=
    hc.trans ((congrArg (signChars negative ++ ·) hbehind).trans (List.append_assoc ..).symm)
  obtain ⟨x, reason, value⟩ := exists_value_front hw hf
  have number := NumberReader.exact_entries (front whole fraction)
  rw [value] at number
  rw [(resolve_longest hm (hc ▸ longest) split ho).trans (congrArg (· >>= _) number)]
  split
  · exact ⟨_, rfl, _, rfl⟩
  · exact ⟨_, rfl, _, _, rfl⟩

end Resolver

/-- A text without blank characters has the tree that it spells. -/
theorem Tree.exists_ofRaw (settings : Settings) {e : Expression} {w : List Char}
    (h : e.Spelled settings.maxDepth 0 w) (hv : ∀ c ∈ w, ¬ isBlank c) :
    ∃ text, Tree.ofRaw settings (String.ofList w) = .ok ⟨text, e⟩ := by
  have blank : ¬ (String.ofList w).toList.all isBlank := by
    rw [String.toList_ofList]
    obtain ⟨c, cs, hcs⟩ := List.exists_cons_of_ne_nil h.text_ne_nil
    rw [hcs] at hv ⊢
    exact fun h => hv c (List.mem_cons_self ..) (List.all_eq_true.mp h c (List.mem_cons_self ..))
  obtain ⟨text, htext, hstripped⟩ := Text.ofRaw_eq_ok blank
  rw [strippedChars_of_visible hv] at hstripped
  exact ⟨text, Tree.ofRaw_eq_ok_iff.mpr ⟨htext, hstripped ▸ h⟩⟩

namespace NumberParts

theorem isTyped_of_digits {ds : List Char} (h : Digits ds) : ∀ c ∈ ds, isTyped c :=
  fun c hc => isTyped_of_isSigned (isSigned_of_isDigit (h c hc))

theorem Fits.isTyped_exponent (h : p.Fits) : ∀ c ∈ exponentText p.exponent, isTyped c := by
  rcases he : p.exponent with _ | w
  · exact List.forall_mem_nil _
  · exact List.forall_mem_cons.mpr ⟨by decide, fun c hc =>
      isTyped_of_isSigned ((h.exponent_integer w he).isSigned c hc)⟩

theorem Fits.isTyped_literal (h : p.Fits) (hb : p.repeating = none) :
    ∀ c ∈ p.entries.literal, isTyped c := by
  rw [literal_eq, hb, List.forall_mem_append, List.forall_mem_append]
  refine ⟨fun c hc => isTyped_of_isSigned (h.integer_isSigned c hc), ?_, h.isTyped_exponent⟩
  rw [fractionText]
  split
  · exact List.forall_mem_nil _
  · rw [Option.getD_none, blockText, if_pos rfl, List.append_nil]
    exact List.forall_mem_cons.mpr ⟨by decide, isTyped_of_digits h.optionalDigits.digits⟩

/-- What a literal with a block spells. -/
theorem Fits.exists_written {b : List Char} (h : p.Fits) (hb : p.repeating = some b) (d : Nat) :
    ∃ items, Item.Written (d + 1) 0 items p.entries.literal ∧ items ≠ [] ∧
      items.map Item.mark = p.integer ++ '.' :: (p.plain.getD [] ++
        placeholder :: 'R' :: exponentText p.exponent) := by
  have block := h.block b hb
  have front : ∀ c ∈ p.integer ++ '.' :: p.plain.getD [], isTyped c := by
    rw [List.forall_mem_append, List.forall_mem_cons]
    exact ⟨fun c hc => isTyped_of_isSigned (h.integer_isSigned c hc), by decide,
      isTyped_of_digits h.optionalDigits.digits⟩
  have back : ∀ c ∈ 'R' :: exponentText p.exponent, isTyped c :=
    List.forall_mem_cons.mpr ⟨by decide, h.isTyped_exponent⟩
  have inner (pos : Nat) := Item.Written.chars d pos (isTyped_of_digits block.1)
  have spelled (pos : Nat) := Expression.Spelled.mk
    (fun hnil => block.ne_nil (List.map_eq_nil_iff.mp hnil)) (inner pos).spelled
  have literal : p.entries.literal = (p.integer ++ '.' :: p.plain.getD []) ++
      ((Bracket.curly.opening :: (b ++ [Bracket.curly.closing])) ++
        'R' :: exponentText p.exponent) := by
    rw [literal_eq, hb, Option.getD_some, fractionText, if_neg fun h => block.ne_nil h.2, blockText,
      if_neg block.ne_nil]
    simp [Bracket.opening, Bracket.closing]
  rw [literal]
  refine ⟨_, (Item.Written.chars (d + 1) 0 front).append ((Item.Written.group .curly
    (.last (spelled _)) (inner 0).visible).append (Item.Written.chars (d + 1) _ back)), ?_, ?_⟩
  · simp
  · simp only [List.map_append, List.map_cons, map_mark_char, List.append_assoc, List.cons_append,
      List.nil_append, Item.mark]

end NumberParts

/-! ### The whole input -/

namespace Calculation

variable {settings : Settings} {r : Resolver} {raw : String} {t : Tree}

theorem ofRaw_of_ok {f : Formula} (ht : Tree.ofRaw settings raw = .ok t)
    (hf : r.resolve t.root = .ok f) : ofRaw settings r raw = .ok ⟨t, f, settings⟩ := by
  have formula : r.ofTree settings t = .ok f := Resolver.ofTree_eq_ok_iff.mpr hf
  rw [ofRaw, ht]
  show Except.mapError _ (r.ofTree settings t) >>= _ = _
  rw [formula]
  rfl

theorem ofRaw_of_error {fault : ResolveFault} (ht : Tree.ofRaw settings raw = .ok t)
    (hf : r.resolve t.root = .error fault) :
    ∃ report, ofRaw settings r raw = .error (.resolve report) ∧ report.cause = fault := by
  refine ⟨t.text.report settings ResolveFault.carets fault, ?_, rfl⟩
  rw [ofRaw, ht]
  show Except.mapError _ ((r.resolve t.root).mapError _) >>= _ = _
  rw [hf]
  rfl

/-- A literal without a block is an input with its value. -/
theorem calculate_finite (hp : NumberParts.ofLiteral raw.toList = some p) (hb : p.repeating = none)
    (context : Context) :
    (∃ x, p.value = .ok x ∧ calculate raw context = .ok x) ∨
      ∃ fault failure, p.value = .error fault ∧ calculate raw context = .error failure := by
  obtain ⟨fits, literal⟩ := Numeral.ofLiteral_eq_some_iff.mp hp
  obtain ⟨negative, whole, hi, hw⟩ := fits.exists_sign
  have written := Item.Written.chars 256 0 (fits.isTyped_literal hb)
  obtain ⟨c, cs, hc, -⟩ := fits.literal_starts
  have spelled := Expression.Spelled.mk (by simp [hc]) written.spelled
  obtain ⟨text, htree⟩ := Tree.exists_ofRaw {} spelled written.visible
  rw [literal, String.ofList_toList] at htree
  have hu := (fits.unsigned hi).unary hw.digits negative
  rw [← literal_signed hi, literal, ← map_mark_char raw.toList] at hu
  have resolve := Resolver.resolve_unary (r := .standard) (e := .mk 0 _ (raw.toList.map .char))
    (literal ▸ spelled.marked) hu
  rcases fits.value_cases hi hw with ⟨x, hx, hv⟩ | ⟨fault, fault', hx, hv⟩
  · have number := NumberReader.exact_eq_ok_iff.mpr hx
    have formula := resolve.trans (congrArg (Except.map _) number)
    refine .inl ⟨_, hv, ?_⟩
    rw [calculate, ofRaw_of_ok htree formula]
    show Except.mapError _ (Formula.evaluate {} context _) = _
    rw [Formula.evaluate_signed]
    rfl
  · have number := NumberReader.exact_entries { p with integer := whole }
    rw [hx] at number
    have resolve := resolve.trans (congrArg (Except.map _) number)
    obtain ⟨report, hreport, -⟩ := ofRaw_of_error htree resolve
    refine .inr ⟨fault', .resolve report, hv, ?_⟩
    rw [calculate, hreport]
    rfl

theorem ofRaw_block {b : List Char} (hp : NumberParts.ofLiteral raw.toList = some p)
    (hb : p.repeating = some b) : ∃ report, ofRaw {} .standard raw = .error (.resolve report) ∧
      if (p.plain.getD []).length ≤ maxLiteralExponent then
        ∃ position, report.cause = .strayContent position
      else ∃ literal reason, report.cause = .invalidNumber literal reason := by
  obtain ⟨fits, literal⟩ := Numeral.ofLiteral_eq_some_iff.mp hp
  obtain ⟨negative, whole, hi, hw⟩ := fits.exists_sign
  obtain ⟨items, written, hne, marks⟩ := fits.exists_written hb 255
  have spelled := Expression.Spelled.mk hne written.spelled
  obtain ⟨text, htree⟩ := Tree.exists_ofRaw {} spelled written.visible
  rw [literal, String.ofList_toList] at htree
  rw [hi, List.append_assoc] at marks
  obtain ⟨fault, hfault, cause⟩ := Resolver.exists_fault_of_block Builtin.table.lookup
    (e := .mk 0 (0 + raw.toList.length) items) (literal ▸ spelled.marked) hw fits.optionalDigits marks
  obtain ⟨report, hreport, rfl⟩ := ofRaw_of_error (r := .standard) htree hfault
  exact ⟨report, hreport, cause⟩

end Calculation

theorem ofLiteral_ones {n : Nat} (hn : n ≠ 0) :
    NumberParts.ofLiteral (String.ofList ('0' :: '.' ::
        (List.replicate n '1' ++ ['\x7b', '3', '\x7d', 'R']))).toList =
      some ⟨.repeatingDecimal, ['0'], some (List.replicate n '1'), some ['3'], none⟩ := by
  have ones : Digits (List.replicate n '1') := fun c hc => by
    rw [List.eq_of_mem_replicate hc]
    decide
  obtain ⟨k, rfl⟩ := Nat.exists_eq_succ_of_ne_zero hn
  refine Numeral.ofLiteral_eq_some_iff.mpr ⟨⟨.inl (.inr rfl), ?_, ⟨_, rfl, ?_⟩, rfl⟩, ?_⟩
  · rintro _ ⟨⟩
    exact ⟨List.replicate k '1', '1', List.replicate_succ', fun c hc => ones c
      (List.mem_replicate.mpr ⟨hn, List.eq_of_mem_replicate hc⟩), by decide⟩
  · exact ⟨fun c hc => List.mem_singleton.mp hc ▸ rfl, '3', List.mem_singleton_self _, by decide⟩
  · rw [literal_eq, String.toList_ofList]
    simp [fractionText, blockText, exponentText]

theorem ofRaw_ones {n : Nat} (hn : maxLiteralExponent < n) :
    ¬ ∃ report position, Calculation.ofRaw {} .standard (String.ofList ('0' :: '.' ::
        (List.replicate n '1' ++ ['\x7b', '3', '\x7d', 'R']))) = .error (.resolve report) ∧
      report.cause = .strayContent position := by
  obtain ⟨report, hreport, hcause⟩ :=
    Calculation.ofRaw_block (ofLiteral_ones (Nat.ne_zero_of_lt hn)) rfl
  rw [Option.getD_some, List.length_replicate, if_neg (Nat.not_le.mpr hn)] at hcause
  obtain ⟨literal, reason, hinvalid⟩ := hcause
  rintro ⟨report', position, hreport', hstray⟩
  obtain rfl := Failure.resolve.inj (Except.error.inj (hreport.symm.trans hreport'))
  cases hinvalid.symm.trans hstray

/-- An input that is a literal without a block has the value of the literal, whatever the values of
variables are, or none if the literal has none. One with a block is rejected: its braces are those of
a group, and no group can stand behind a number. But a number with too many digits in front of the
block is rejected before the block is found. -/
theorem calculate_literal {raw : String} (hp : NumberParts.ofLiteral raw.toList = some p) :
    (p.repeating = none → ∀ context x,
      calculate raw context = .ok x ↔ Fraction.ofLiteral raw.toList = .ok x) ∧
    (p.repeating.isSome → ∃ report, Calculation.ofRaw {} .standard raw = .error (.resolve report) ∧
      if (p.plain.getD []).length ≤ maxLiteralExponent then
        ∃ position, report.cause = .strayContent position
      else ∃ literal reason, report.cause = .invalidNumber literal reason) := by
  constructor
  · intro hb context x
    rw [Fraction.ofLiteral_eq hp, mapError_eq_ok_iff]
    rcases Calculation.calculate_finite hp hb context with ⟨y, hy, hc⟩ | ⟨fault, failure, hv, hc⟩
    · rw [hy, hc, Except.ok.injEq, Except.ok.injEq]
    · rw [hv, hc]
      exact ⟨nofun, nofun⟩
  · intro hb
    obtain ⟨b, hb⟩ := Option.isSome_iff_exists.mp hb
    exact Calculation.ofRaw_block hp hb

/-- The sign of a zero counts, and two fifteenths are no input. -/
theorem calculate_literal_half :
    NumberParts.ofLiteral "-0.5".toList = some ⟨.decimal, ['-', '0'], some ['5'], none, none⟩ ∧
    NumberParts.ofLiteral "0.1\x7b3\x7dR".toList =
      some ⟨.repeatingDecimal, ['0'], some ['1'], some ['3'], none⟩ ∧
    (∀ context, calculate "-0.5" context = .ok ⟨-1, 2, by decide⟩) ∧
    ∃ report position, Calculation.ofRaw {} .standard "0.1\x7b3\x7dR" = .error (.resolve report) ∧
      report.cause = .strayContent position := by
  have half : NumberParts.ofLiteral "-0.5".toList =
      some ⟨.decimal, ['-', '0'], some ['5'], none, none⟩ :=
    Numeral.ofLiteral_eq_some_iff.mpr ⟨⟨.inr ⟨['0'], rfl, .inr rfl⟩,
      ⟨['5'], rfl, [], '5', rfl, nofun, by decide⟩, rfl, rfl⟩, rfl⟩
  have block : NumberParts.ofLiteral "0.1\x7b3\x7dR".toList =
      some ⟨.repeatingDecimal, ['0'], some ['1'], some ['3'], none⟩ := by
    refine Numeral.ofLiteral_eq_some_iff.mpr ⟨⟨.inl (.inr rfl), ?_, ⟨_, rfl, ?_⟩, rfl⟩, rfl⟩
    · rintro _ ⟨⟩
      exact ⟨[], '1', rfl, nofun, by decide⟩
    · exact ⟨by simp [Digits, isDigit], '3', List.mem_singleton_self _, by decide⟩
  have value : Fraction.ofLiteral "-0.5".toList = .ok ⟨-1, 2, by decide⟩ :=
    (Fraction.ofLiteral_eq half).trans (by decide +kernel)
  obtain ⟨report, hreport, hcause⟩ := (calculate_literal block).2 rfl
  rw [if_pos (by decide)] at hcause
  obtain ⟨position, hposition⟩ := hcause
  exact ⟨half, block, fun context => ((calculate_literal half).1 rfl context _).mpr value, report,
    position, hreport, hposition⟩

/-- One digit more than a literal may have stands in front of the block. -/
theorem ofRaw_too_many_ones :
    (∃ p, NumberParts.ofLiteral (String.ofList ('0' :: '.' ::
        (List.replicate 100001 '1' ++ ['\x7b', '3', '\x7d', 'R']))).toList = some p ∧
      p.repeating.isSome) ∧
    ¬ ∃ report position, Calculation.ofRaw {} .standard (String.ofList ('0' :: '.' ::
        (List.replicate 100001 '1' ++ ['\x7b', '3', '\x7d', 'R']))) = .error (.resolve report) ∧
      report.cause = .strayContent position :=
  ⟨⟨_, ofLiteral_ones (by decide), rfl⟩, ofRaw_ones (by decide)⟩

end Reckon
