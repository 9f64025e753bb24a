import Mathlib
import Reckon.Pattern.Reader

/-!
# The pieces of the notation of patterns

A piece of a source is told by its own characters; of what stands behind it at most a `?` matters, and
only in that it makes a piece invalid (`next_eq_some`). A set is read to the bracket that closes it,
and its characters stand where `Place` says they stand (`readSet_eq_some`). So the notation of patterns
is a notation as others are (`dialect_standard`).
-/

namespace Reckon.Pattern

variable {c : Char} {t r : List Char}

/-! ### Sets -/

namespace SetDraft

variable {d e : SetDraft} {q : SetPlace}

/-- Where in a set a draft of it stands. -/
inductive At (d : SetDraft) : SetPlace → Prop
  | start : d.fresh = true → d.blank = true → d.dash = false → d.pending = none → d.At .start
  | negated : d.fresh = false → d.blank = true → d.dash = false → d.pending = none → d.At .negated
  | dashes : d.fresh = false → d.blank = false → d.dash = false → d.pending = some '-' → d.At .dashes
  | ready : d.fresh = false → d.blank = false → d.dash = false →
      d.pending = none ∨ d.pending = some ']' → d.At .ready
  | member {x : Char} {y : Option Char} : d.fresh = false → d.blank = false → d.dash = false →
      d.pending = some x → y = none ∨ y = some x → d.At (.member y)
  | range {x : Char} : d.fresh = false → d.blank = false → d.dash = true → d.pending = some x →
      d.At .range

/-- What a member does to a draft. -/
theorem member_eq_some (h : d.member c = some e) : e.fresh = false ∧ e.blank = false ∧
    e.dash = false ∧
      ((d.dash = true ∧ d.pending.isSome ∧ e.pending = none) ∨
        ((d.dash = false ∨ d.pending = none) ∧ e.pending = some c)) := by
  rw [member] at h
  split at h
  · next hpending hdash =>
    split at h
    · cases h
      exact ⟨rfl, rfl, rfl, .inl ⟨hdash, by rw [hpending]; rfl, rfl⟩⟩
    · cases h
  · next hno =>
    cases h
    refine ⟨rfl, rfl, rfl, .inr ⟨?_, rfl⟩⟩
    cases hp : d.pending with
    | none => exact .inr rfl
    | some x =>
      cases hd : d.dash with
      | false => exact .inl rfl
      | true => exact (hno x hp hd).elim

theorem At.closing (h : d.At q) (hb : d.blank = false) :
    (Place.inSet 0 q).next ']' = .outside := by
  cases h with
  | start _ hb' | negated _ hb' => rw [hb] at hb'; cases hb'
  | dashes | ready | range => rfl
  | member => simp [Place.next, Place.between, Place.closed]

theorem At.backslash (h : d.At q) : (Place.inSet 0 q).next '\\' = .inSet 0 (.escaped d.dash) := by
  cases h with
  | start _ _ hd | negated _ _ hd | dashes _ _ hd | ready _ _ hd => rw [hd]; rfl
  | member _ _ hd => rw [hd]; simp [Place.next, Place.between]
  | range _ _ hd => rw [hd]; rfl

/-- The place behind an escaped member. -/
theorem At.escaped (h : d.At q) (hc : escapable c) (he : d.member c = some e) :
    ∃ q', (Place.inSet 0 (.escaped d.dash)).next c = .inSet 0 q' ∧ e.At q' := by
  have hx : c ≠ 'x' ∧ c ≠ 'u' ∧ c ≠ 'U' ∧ c ≠ 'p' ∧ c ≠ 'P' := by
    refine ⟨?_, ?_, ?_, ?_, ?_⟩ <;> rintro rfl <;> revert hc <;> decide
  obtain ⟨hx, hu, hU, hp, hP⟩ := hx
  obtain ⟨hf, hb, hd, hpending⟩ := member_eq_some he
  refine ⟨if d.dash then .ready else .member none, ?_, ?_⟩
  · simp [Place.next, Place.behindEscape, hx, hu, hU, hp, hP]
  · rcases hpending with ⟨hdash, -, hnone⟩ | ⟨hdash, hsome⟩
    · rw [if_pos hdash]
      exact .ready hf hb hd (.inl hnone)
    · have hdash : d.dash = false := by
        rcases hdash with h' | hnone
        · exact h'
        · cases h with
          | start _ _ h' | negated _ _ h' | dashes _ _ h' | ready _ _ h' | member _ _ h' => exact h'
          | range _ _ _ hsome => rw [hnone] at hsome; cases hsome
      rw [hdash]
      exact .member hf hb hd hsome (.inl rfl)

/-- The place behind a range mark. -/
theorem At.rangeMark (h : d.At q) (hr : ¬ d.isReserved '-') (hp : d.pending.isSome) :
    (Place.inSet 0 q).next '-' = .inSet 0 .range ∧ ({ d with dash := true } : SetDraft).At .range := by
  cases h with
  | start _ _ _ hn | negated _ _ _ hn => rw [hn] at hp; cases hp
  | dashes _ _ _ hs => simp [isReserved, hs] at hr
  | ready _ _ _ hn =>
    rcases hn with hn | hs
    · rw [hn] at hp; cases hp
    · simp [isReserved, hs] at hr
  | @member x y hf hb hd hs hy =>
    have hne : y ≠ some '-' := by
      rintro rfl
      rcases hy with hy | hy
      · cases hy
      · simp [isReserved, hs, ← Option.some.inj hy] at hr
    refine ⟨?_, .range hf hb rfl hs⟩
    simp [Place.next, hne]
  | range _ _ hd => simp [isReserved, hd] at hr

/-- The place behind a plain member. -/
theorem At.plain (h : d.At q) (hfresh : ¬ (c = '^' ∧ d.fresh = true))
    (hclose : ¬ (c = ']' ∧ d.blank = false)) (hopen : c ≠ '[') (hslash : c ≠ '\\')
    (hr : ¬ d.isReserved c) (hmark : ¬ (c = '-' ∧ d.pending.isSome)) (he : d.member c = some e) :
    ∃ q', (Place.inSet 0 q).next c = .inSet 0 q' ∧ e.At q' := by
  obtain ⟨hf, hb, hd, hpending⟩ := member_eq_some he
  have between (hc : c ≠ ']') : Place.between 0 c = .inSet 0 (.member (some c)) := by
    simp [Place.between, hopen, hc, hslash]
  have later (hdash : d.dash = false) : e.pending = some c := by
    rcases hpending with ⟨h', -⟩ | ⟨-, hs⟩
    · rw [hdash] at h'; cases h'
    · exact hs
  have first (hdash : d.dash = false) : ∃ q', (Place.inSet 0 .negated).next c = .inSet 0 q' ∧
      e.At q' := by
    have hs := later hdash
    by_cases hmark : c = '-'
    · subst hmark
      exact ⟨.dashes, rfl, .dashes hf hb hd hs⟩
    by_cases hend : c = ']'
    · subst hend
      exact ⟨.ready, rfl, .ready hf hb hd (.inr hs)⟩
    · refine ⟨.member (some c), ?_, .member hf hb hd hs (.inr rfl)⟩
      rw [Place.next, if_neg hmark, if_neg hend, between hend]
  cases h with
  | start hfr hbl hda hn =>
    rw [Place.next, if_neg fun hc => hfresh ⟨hc, hfr⟩]
    exact first hda
  | negated hfr hbl hda hn => exact first hda
  | dashes hfr hbl hda hp =>
    have hdash : c ≠ '-' := fun hc => hmark ⟨hc, by rw [hp]; rfl⟩
    refine ⟨.member (some c), ?_, .member hf hb hd (later hda) (.inr rfl)⟩
    rw [Place.next, if_neg hdash, between fun hc => hclose ⟨hc, hbl⟩]
  | ready hfr hbl hda hp =>
    refine ⟨.member (some c), ?_, .member hf hb hd (later hda) (.inr rfl)⟩
    rw [Place.next, between fun hc => hclose ⟨hc, hbl⟩]
  | @member x y hfr hbl hda hp hy =>
    have hdash : c ≠ '-' := fun hc => hmark ⟨hc, by rw [hp]; rfl⟩
    -- two of a kind are refused
    have hop : ¬ (y = some c ∧ c ∈ ['&', '~', '-']) := by
      rintro ⟨rfl, hc⟩
      obtain rfl : c = x := by simpa using hy
      simp only [List.mem_cons, List.not_mem_nil, or_false, hdash] at hc
      exact hr (by rw [isReserved, hp]; simp [hc])
    refine ⟨.member (some c), ?_, .member hf hb hd (later hda) (.inr rfl)⟩
    rw [Place.next, if_neg hop, if_neg hdash, between fun hc => hclose ⟨hc, hbl⟩]
  | @range x hfr hbl hda hp =>
    have hnone : e.pending = none := by
      rcases hpending with ⟨-, -, hn⟩ | ⟨h', -⟩
      · exact hn
      · rw [hda, hp] at h'; simp at h'
    refine ⟨.ready, ?_, .ready hf hb hd (.inl hnone)⟩
    rw [Place.next, if_neg fun hc => hclose ⟨hc, hbl⟩, if_neg hslash]

end SetDraft

/-- A set is read to its closing bracket, whatever stands behind it. -/
theorem readSet_eq_some {d : SetDraft} {q : SetPlace} {escaped : Bool} {s : CharSet} (hq : d.At q)
    (h : readSet d escaped t = some (s, r)) : ∃ u, t = u ++ r ∧
      (∀ r', readSet d escaped (u ++ r') = some (s, r')) ∧
        (Place.inSet 0 (if escaped then .escaped d.dash else q)).Covers u := by
  induction d, escaped, t using readSet.induct generalizing q with
  | case1 => cases h
  | case2 d c cs hc ih =>
    rw [readSet, if_pos hc] at h
    obtain ⟨d', hd, h⟩ := Option.bind_eq_some_iff.mp h
    obtain ⟨q', hnext, hq'⟩ := hq.escaped hc hd
    obtain ⟨u, rfl, hu, hcovers⟩ := ih d' hq' h
    refine ⟨c :: u, rfl, fun r' => ?_, nofun, hnext ▸ hcovers⟩
    rw [List.cons_append, readSet, if_pos hc, hd, Option.bind_some, hu]
  | case3 d c cs hc => rw [readSet, if_neg hc] at h; cases h
  | case4 d c cs hc ih =>
    rw [readSet, if_pos hc] at h
    simp only [Bool.and_eq_true, decide_eq_true_eq] at hc
    obtain ⟨rfl, hfresh⟩ := hc
    cases hq with
    | start hf hb hd hp =>
      obtain ⟨u, rfl, hu, hcovers⟩ := ih (.negated rfl hb hd hp) h
      refine ⟨'^' :: u, rfl, fun r' => ?_, nofun, hcovers⟩
      rw [List.cons_append, readSet, if_pos (by simp [hfresh]), hu]
    | negated hf | dashes hf | ready hf | member hf | range hf => rw [hfresh] at hf; cases hf
  | case5 d c cs hcaret hc =>
    rw [readSet, if_neg hcaret, if_pos hc] at h
    obtain ⟨rfl, rfl⟩ := Prod.mk.inj (Option.some.inj h)
    refine ⟨[c], rfl, fun r' => ?_, nofun, ?_⟩
    · rw [List.singleton_append, readSet, if_neg hcaret, if_pos hc]
    · simp only [Bool.and_eq_true, decide_eq_true_eq, Bool.not_eq_true'] at hc
      obtain ⟨rfl, hb⟩ := hc
      exact hq.closing hb
  | case6 d cs hcaret hclose => rw [readSet, if_neg hcaret, if_neg hclose, if_pos rfl] at h; cases h
  | case7 d cs hcaret hclose hopen ih =>
    rw [readSet, if_neg hcaret, if_neg hclose, if_neg hopen, if_pos rfl] at h
    obtain ⟨u, rfl, hu, hcovers⟩ := ih hq h
    refine ⟨'\\' :: u, rfl, fun r' => ?_, nofun, hq.backslash ▸ hcovers⟩
    rw [List.cons_append, readSet, if_neg hcaret, if_neg hclose, if_neg hopen, if_pos rfl, hu]
  | case8 d c cs hcaret hclose hopen hslash hr =>
    rw [readSet, if_neg hcaret, if_neg hclose, if_neg hopen, if_neg hslash, if_pos hr] at h
    cases h
  | case9 d c cs hcaret hclose hopen hslash hr hmark ih =>
    rw [readSet, if_neg hcaret, if_neg hclose, if_neg hopen, if_neg hslash, if_neg hr,
      if_pos hmark] at h
    have hmark' := hmark
    simp only [Bool.and_eq_true, decide_eq_true_eq] at hmark'
    obtain ⟨rfl, hp⟩ := hmark'
    obtain ⟨hnext, hq'⟩ := hq.rangeMark hr hp
    obtain ⟨u, rfl, hu, hcovers⟩ := ih hq' h
    refine ⟨'-' :: u, rfl, fun r' => ?_, nofun, hnext ▸ hcovers⟩
    rw [List.cons_append, readSet, if_neg hcaret, if_neg hclose, if_neg hopen, if_neg hslash,
      if_neg hr, if_pos hmark, hu]
  | case10 d c cs hcaret hclose hopen hslash hr hmark ih =>
    rw [readSet, if_neg hcaret, if_neg hclose, if_neg hopen, if_neg hslash, if_neg hr,
      if_neg hmark] at h
    obtain ⟨d', hd, h⟩ := Option.bind_eq_some_iff.mp h
    obtain ⟨q', hnext, hq'⟩ := hq.plain (by simpa using hcaret) (by simpa using hclose) hopen hslash
      hr (by simpa using hmark) hd
    obtain ⟨u, rfl, hu, hcovers⟩ := ih d' hq' h
    refine ⟨c :: u, rfl, fun r' => ?_, nofun, hnext ▸ hcovers⟩
    rw [List.cons_append, readSet, if_neg hcaret, if_neg hclose, if_neg hopen, if_neg hslash,
      if_neg hr, if_neg hmark, hd, Option.bind_some, hu]

/-! ### Pieces -/

/-- `u` is read as the piece `p`. Behind it a `?` may make a difference, and nothing else does. -/
structure Told (u : List Char) (p : Piece Atom) (r : List Char) : Prop where
  ne_nil : u ≠ []
  next (r' : List Char) : (r'.head? = some '?' → r.head? = some '?') → next (u ++ r') = some (p, r')
  covers : u.head? ≠ some '(' → u.head? ≠ some ')' → p.IsPlain ∧ Place.outside.Covers u

variable {p : Piece Atom}

/-- A character that is no parenthesis and starts no set and no escape is covered. -/
theorem covers_single (h : c ∉ ['(', ')', '\\', '[']) : Place.outside.Covers [c] := by
  simp only [List.mem_cons, List.not_mem_nil, or_false, not_or] at h
  obtain ⟨hopen, hclose, hslash, hset⟩ := h
  exact ⟨fun _ => ⟨hopen, hclose⟩, by simp [Place.next, hslash, hset, Place.Covers]⟩

theorem told_mark {least : Nat} {most : Option Nat} (hc : c ∉ ['(', ')', '\\', '['])
    (hnext : ∀ cs, next (c :: cs) = readMark least most cs) (h : readMark least most t = some (p, r)) :
    ∃ u, c :: t = u ++ r ∧ Told u p r := by
  rw [readMark] at h
  split at h
  · cases h
  · next hq =>
    cases h
    refine ⟨[c], rfl, List.cons_ne_nil _ _, fun r' hr => ?_, fun _ _ => ⟨trivial, covers_single hc⟩⟩
    rw [List.singleton_append, hnext, readMark, if_neg fun h => hq (hr h)]

theorem readOpening_of_head (h : t.head? ≠ some '?') : readOpening t = some (.opening true, t) := by
  rw [readOpening.eq_def]
  split
  · exact absurd rfl h
  · exact absurd rfl h
  · rfl

theorem told_single (hc : c ∉ ['\\', '[']) (hp : c = '(' ∨ c = ')' ∨ p.IsPlain)
    (hnext : ∀ cs, next (c :: cs) = some (p, cs)) : Told [c] p r := by
  refine ⟨List.cons_ne_nil _ _, fun r' _ => hnext r', fun hopen hclose => ?_⟩
  have hopen : c ≠ '(' := fun h => hopen (congrArg some h)
  have hclose : c ≠ ')' := fun h => hclose (congrArg some h)
  refine ⟨(hp.resolve_left hopen).resolve_left hclose, covers_single ?_⟩
  simp only [List.mem_cons, List.not_mem_nil, or_false, not_or] at hc ⊢
  exact ⟨hopen, hclose, hc⟩

/-- A piece is told by its own characters. -/
theorem next_eq_some (h : next t = some (p, r)) : ∃ u, t = u ++ r ∧ Told u p r := by
  revert h
  fun_cases next t <;> intro h
  case case1 | case10 => cases h
  case case2 cs =>
    -- a backslash
    cases cs with
    | nil => cases h
    | cons c cs =>
      rw [readEscape] at h
      split at h
      · next hc =>
        cases h
        refine ⟨['\\', c], rfl, List.cons_ne_nil _ _, fun r' _ => ?_, fun _ _ => ⟨trivial, ?_⟩⟩
        · exact if_pos hc
        · exact ⟨fun _ => by decide, nofun, rfl⟩
      · cases h
  case case3 cs _ =>
    rw [readOpening.eq_def] at h
    split at h
    · cases h
      exact ⟨['(', '?', ':'], rfl, List.cons_ne_nil _ _, fun _ _ => rfl, fun h => absurd rfl h⟩
    · cases h
    · next hcs hno =>
      cases h
      refine ⟨['('], rfl, List.cons_ne_nil _ _, fun r' hr => ?_, fun h => absurd rfl h⟩
      refine readOpening_of_head fun h => ?_
      obtain ⟨ds, hds⟩ := List.head?_eq_some_iff.mp (hr h)
      exact hno ds hds
  case case5 cs _ _ _ =>
    obtain ⟨⟨s, r'⟩, hs, he⟩ := Option.map_eq_some_iff.mp h
    cases he
    obtain ⟨u, rfl, hu, hcovers⟩ := readSet_eq_some (.start rfl rfl rfl rfl) hs
    refine ⟨'[' :: u, rfl, List.cons_ne_nil _ _, fun r' _ => ?_, fun _ _ => ⟨trivial, ?_⟩⟩
    · show (readSet .new false (u ++ r')).map _ = _
      rw [hu]
      rfl
    · exact ⟨fun _ => by decide, hcovers⟩
  case case7 | case8 | case9 =>
    exact told_mark (by decide) (fun _ => rfl) h
  case case14 c cs h1 h2 h3 h4 h5 h6 h7 h8 h9 h10 h11 h12 =>
    cases h
    exact ⟨[c], rfl, told_single (by simp [h1, h4]) (.inr (.inr trivial))
      fun _ => by simp only [next, *, if_false]⟩
  case case4 cs _ _ =>
    cases h
    exact ⟨[')'], rfl, told_single (by decide) (.inr (.inl rfl)) fun _ => rfl⟩
  all_goals
    cases h
    exact ⟨_, rfl, told_single (by decide) (.inr (.inr trivial)) fun _ => rfl⟩

theorem dialect_next_iff {f g : Unit} : dialect.next f t = some (p, g, r) ↔ next t = some (p, r) := by
  refine Option.map_eq_some_iff.trans ⟨?_, fun h => ⟨_, h, rfl⟩⟩
  rintro ⟨⟨p', r'⟩, h, he⟩
  cases he
  exact h

/-- The notation of patterns is one of regular expressions. -/
theorem dialect_standard : dialect.Standard where
  advances h := by
    obtain ⟨u, ht, htold⟩ := next_eq_some (dialect_next_iff.mp h)
    exact ⟨u, htold.ne_nil, ht⟩
  closing _ _ := ⟨(), rfl⟩
  plain _ _ := rfl
  capture h := dialect_next_iff.mpr (readOpening_of_head h)
  bar _ := rfl
  textStart := ⟨.textStart, rfl, fun _ => rfl⟩
  textEnd := ⟨.textEnd, rfl, fun _ => rfl⟩
  beforeClosing {f g t r p} h := by
    obtain ⟨u, rfl, htold⟩ := next_eq_some (dialect_next_iff.mp h)
    refine .inl (dialect_next_iff.mpr ?_)
    rw [List.append_assoc]
    exact htold.next (r ++ [')']) (by cases r <;> simp)
  behindClosing {f g t r p} h v := by
    obtain ⟨u, ht, htold⟩ := next_eq_some (dialect_next_iff.mp h)
    rw [← List.append_assoc] at ht
    obtain rfl := List.append_cancel_right ht
    refine dialect_next_iff.mpr ?_
    rw [List.append_assoc]
    exact htold.next (r ++ ')' :: v) (by cases r <;> simp)
  other {c g t r p} hopen hclose h := by
    obtain ⟨u, ht, htold⟩ := next_eq_some (dialect_next_iff.mp h)
    have hu : u.head? = some c := by
      cases u with
      | nil => exact absurd rfl htold.ne_nil
      | cons x u => exact congrArg some (List.cons.inj ht).1.symm
    obtain ⟨hp, hcovers⟩ := htold.covers (by simpa [hu] using hopen) (by simpa [hu] using hclose)
    exact ⟨rfl, hp, u, ht, hcovers⟩

end Reckon.Pattern
