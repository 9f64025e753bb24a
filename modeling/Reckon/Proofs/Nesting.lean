import Mathlib
import Reckon.Grammar.Template
import Reckon.Proofs.Decision
import Reckon.Proofs.Numbering

/-!
# Names and capture groups agree

While a template is assembled, the source written so far is read along. The open parts of the assembly
and the open groups of its reading correspond level by level, and what is nested in a part is nested in
the group (`Assembly.Follows`). Three steps keep this. A parenthesis of a regular template opens or
closes a group, since it stands at the start of a piece. A spliced part is read as a group of what its
source is read as alone. Any other piece opens and closes nothing, and the template has the same
characters there (`Assembly.exists_covered`).

So the named parts of a component are nested as the capture groups of its source are, and there are no
other groups (`Agrees`). The numbers need no more: both count in the order in which groups open.
-/

namespace Reckon

/-! ### The groups of named parts -/

namespace Part

mutual
/-- The group of a part, with the groups of the parts inside. -/
def groupTree : Part → GroupTree
  | ⟨_, group, children⟩ => .mk group (groupTrees children)
def groupTrees : List Part → List GroupTree
  | [] => []
  | p :: ps => p.groupTree :: groupTrees ps
end

mutual
/-- The same without the numbers. -/
def nest : Part → Nest
  | ⟨_, _, children⟩ => .mk (nests children)
def nests : List Part → List Nest
  | [] => []
  | p :: ps => p.nest :: nests ps
end

theorem nests_append (ps qs : List Part) : nests (ps ++ qs) = nests ps ++ nests qs := by
  induction ps with
  | nil => rw [nests, List.nil_append, List.nil_append]
  | cons p ps ih => rw [List.cons_append, nests, nests, ih, List.cons_append]

mutual
theorem nest_shift (offset : Nat) : ∀ p : Part, (p.shift offset).nest = p.nest
  | ⟨_, _, children⟩ => by rw [shift, nest, nest, nests_shifts offset children]
theorem nests_shifts (offset : Nat) : ∀ ps : List Part, nests (shifts offset ps) = nests ps
  | [] => by rw [shifts]
  | p :: ps => by rw [shifts, nests, nests, nest_shift offset p, nests_shifts offset ps]
end

mutual
theorem size_nest : ∀ p : Part, p.nest.size = p.size
  | ⟨_, _, children⟩ => by rw [nest, Nest.size, size, sizes_nests children, Nat.add_comm]
theorem sizes_nests : ∀ ps : List Part, Nest.sizes (nests ps) = sizes ps
  | [] => by rw [nests, Nest.sizes, sizes]
  | p :: ps => by rw [nests, Nest.sizes, sizes, size_nest p, sizes_nests ps]
end

mutual
/-- A part that is numbered in preorder is the group that is numbered so. -/
theorem groupTree_eq : ∀ (p : Part) (n : Nat),
    (preorder p).map Part.group = List.range' (n + 1) p.size → p.groupTree = p.nest.number n
  | ⟨name, group, children⟩, n, h => by
    rw [preorder, List.map_cons, size, Nat.add_comm 1, List.range'_succ] at h
    obtain ⟨hgroup, hchildren⟩ := List.cons.inj h
    rw [groupTree, nest, Nest.number, groupTrees_eq children (n + 1) hchildren]
    exact congrArg (GroupTree.mk · _) hgroup
theorem groupTrees_eq : ∀ (ps : List Part) (n : Nat),
    (preorders ps).map Part.group = List.range' (n + 1) (sizes ps) →
      groupTrees ps = Nest.numberAll (nests ps) n
  | [], _, _ => by rw [groupTrees, nests, Nest.numberAll]
  | p :: ps, n, h => by
    have hlength : ((preorder p).map Part.group).length = p.size := by
      rw [List.length_map, length_preorder]
    rw [preorders, List.map_append, sizes, ← List.range'_append_1] at h
    obtain ⟨hp, hps⟩ := List.append_inj h (by rw [hlength, List.length_range'])
    rw [groupTrees, nests, Nest.numberAll, groupTree_eq p n hp, size_nest,
      groupTrees_eq ps (n + p.size) (by rw [hps, Nat.add_right_comm])]
end

end Part

/-! ### The groups of open levels -/

namespace Level

variable {D : Dialect}

/-- The groups closed inside of a level, from left to right. -/
def nests (l : Level D) : List Nest := (l.done.reverse ++ l.items.reverse).flatMap Regex.nests

theorem nests_push (l : Level D) (p : Regex D.Atom) : (l.push p).nests = l.nests ++ p.nests := by
  simp [nests, push]

theorem nests_split (l : Level D) : l.split.nests = l.nests := by
  simp [nests, split, Regex.nests_sequence]

theorem nests_body (l : Level D) : l.body.nests = l.nests := by
  rw [body, Regex.nests_choice, ← nests_split, nests]
  simp [split]

/-- A level with the groups closed inside of it. -/
def shape (l : Level D) : Bool × D.Flags × List Nest := (l.captures, l.flags, l.nests)

end Level

namespace Dialect.State

variable {D : Dialect} {s s' : State D} {f : D.Flags} {p : Piece D.Atom}

/-- The open levels, the innermost first. -/
def shape (s : State D) : List (Bool × D.Flags × List Nest) := (s.top :: s.below).map Level.shape

theorem shape_top {top : Level D} (h : top.shape = s.top.shape) :
    (⟨f, top, s.below⟩ : State D).shape = s.shape := by
  rw [shape, shape, List.map_cons, List.map_cons, h]

theorem shape_push {q : Regex D.Atom} (hq : q.nests = []) :
    (⟨f, s.top.push q, s.below⟩ : State D).shape = s.shape :=
  shape_top (by rw [Level.shape, Level.nests_push, hq, List.append_nil]; rfl)

/-- A plain piece changes nothing but the flags. -/
theorem take_plain (hp : p.IsPlain) (h : s.take f p = some s') : s'.flags = f ∧ s'.shape = s.shape := by
  cases p with
  | opening | closing => exact hp.elim
  | atom | setting => cases h; exact ⟨rfl, shape_push rfl⟩
  | bar => cases h; exact ⟨rfl, shape_top (by rw [Level.shape, Level.nests_split]; rfl)⟩
  | space => cases h; exact ⟨rfl, rfl⟩
  | mark least most =>
    obtain ⟨l, hl, rfl⟩ := Option.map_eq_some_iff.mp h
    obtain ⟨q, qs, hq, rfl⟩ := Level.repeatLast_eq_some hl
    exact ⟨rfl, shape_top (by simp [Level.shape, Level.nests, hq, Regex.nests])⟩

end Dialect.State

namespace Component

open Dialect (State)

variable {E : Engine} {D : Dialect}

/-- The source of a component can be enclosed, and in what it is read as groups are nested as the named
parts are. -/
def Agrees (D : Dialect) (c : Component E) : Prop :=
  ∃ p, D.Enclosed c.source p ∧ p.nests = Part.nests c.parts

/-! ### Regular templates -/

section
variable {p : Place} {c : Char} {rest : List Char}

theorem isRegularFrom_part :
    isRegularFrom p ('%' :: 's' :: rest) ↔ p = .outside ∧ isRegularFrom .outside rest := by
  rw [isRegularFrom, Bool.and_eq_true, decide_eq_true_eq]

theorem isRegularFrom_opening : isRegularFrom p ('(' :: rest) ↔
    p = .outside ∧ rest.head? ≠ some '?' ∧ isRegularFrom .outside rest := by
  rw [isRegularFrom.eq_3 _ _ _ (by simp), if_pos rfl, Bool.and_eq_true, Bool.and_eq_true,
    decide_eq_true_eq, decide_eq_true_eq, and_assoc]

theorem isRegularFrom_closing :
    isRegularFrom p (')' :: rest) ↔ p = .outside ∧ isRegularFrom .outside rest := by
  rw [isRegularFrom.eq_3 _ _ _ (by simp), if_neg (by decide), if_pos rfl, Bool.and_eq_true,
    decide_eq_true_eq]

theorem isRegularFrom_plain (hsplice : ∀ r, c = '%' → rest = 's' :: r → False) (hopen : c ≠ '(')
    (hclose : c ≠ ')') : isRegularFrom p (c :: rest) = isRegularFrom (p.next c) rest := by
  rw [isRegularFrom.eq_3 _ _ _ hsplice, if_neg hopen, if_neg hclose]

end

namespace Assembly

variable {a b m : Assembly E} {s e : State D} {text rest w : List Char}

/-! ### One step of an assembly -/

/-- The names and parts to come are as many as a template asks for, and the parts agree. -/
structure Supplied (D : Dialect) (a : Assembly E) (text : List Char) : Prop where
  names : a.names.length = text.count '('
  components : a.components.length = placeholders text
  agrees : ∀ c ∈ a.components, c.Agrees D

/-- `Step a text w rest m`: from `a` with the template `text` ahead an assembly writes `w` and goes on
from `m` with `rest`. -/
inductive Step (a : Assembly E) : List Char → List Char → List Char → Assembly E → Prop
  | part {c : Component E} {cs : List (Component E)} {rest : List Char} :
      a.components = c :: cs → Step a ('%' :: 's' :: rest) (Dialect.enclose c.source) rest a.splice
  | opening {name : PartName} {names : List PartName} {rest : List Char} :
      a.names = name :: names → Step a ('(' :: rest) ['('] rest a.openGroup
  | closing {m : Assembly E} {rest : List Char} :
      a.closeGroup = some m → Step a (')' :: rest) [')'] rest m
  | plain {c : Char} {rest : List Char} : (∀ r, c = '%' → rest = 's' :: r → False) → c ≠ '(' →
      c ≠ ')' → Step a (c :: rest) [c] rest (a.write c)

theorem source_add (a : Assembly E) (ps : List Part) : (a.add ps).source = a.source := by
  rw [add]
  split <;> rfl

theorem closeGroup_eq_some (h : a.closeGroup = some m) : ∃ o os, a.opened = o :: os ∧
    m = (({ a with opened := os } : Assembly E).add [⟨o.name, o.group, o.children⟩]).write ')' := by
  rw [closeGroup] at h
  split at h
  · cases h
  · next o os ho => exact ⟨o, os, ho, (Option.some.inj h).symm⟩

theorem names_add (a : Assembly E) (ps : List Part) : (a.add ps).names = a.names := by
  rw [add]
  split <;> rfl

theorem Step.source (h : Step a text w rest m) : m.source = w.reverse ++ a.source := by
  cases h with
  | part hc => rw [splice, hc]
  | opening hn => rw [openGroup, hn]; rfl
  | closing hm =>
    obtain ⟨o, os, -, rfl⟩ := closeGroup_eq_some hm
    rw [write, source_add]
    rfl
  | plain => rfl

theorem Step.supplied (h : Step a text w rest m) (hs : a.Supplied D text) : m.Supplied D rest := by
  obtain ⟨hnames, hcomponents, hagrees⟩ := hs
  cases h with
  | part hc =>
    rw [splice, hc]
    rw [hc] at hcomponents hagrees
    refine ⟨?_, ?_, fun c h => hagrees c (List.mem_cons_of_mem _ h)⟩
    · exact (congrArg List.length (names_add a _)).trans (by simpa using hnames)
    · simpa [placeholders] using hcomponents
  | opening hn =>
    rw [openGroup, hn]
    rw [hn] at hnames
    exact ⟨by simpa using hnames, hcomponents, hagrees⟩
  | closing hm =>
    obtain ⟨o, os, -, rfl⟩ := closeGroup_eq_some hm
    refine ⟨?_, ?_, ?_⟩
    · rw [write, names_add]
      simpa using hnames
    · rw [write, components_add]
      exact hcomponents
    · rw [write, components_add]
      exact hagrees
  | plain hsplice hopen _ =>
    rw [placeholders.eq_3 _ _ hsplice] at hcomponents
    rw [List.count_cons_of_ne hopen] at hnames
    exact ⟨hnames, hcomponents, hagrees⟩

/-- A template is over, or its next step can be taken. -/
theorem read_cases (hread : read text a = some b) (hs : a.Supplied D text) :
    (text = [] ∧ a.opened = [] ∧ b = a) ∨
      ∃ w rest m, Step a text w rest m ∧ rest.length < text.length ∧ read rest m = some b := by
  induction text using placeholders.induct with
  | case1 =>
    rw [read] at hread
    split at hread
    · next ho => exact .inl ⟨rfl, List.isEmpty_iff.mp ho, (Option.some.inj hread).symm⟩
    · cases hread
  | case2 rest =>
    rw [read] at hread
    have hlength := hs.components
    obtain ⟨c, cs, hc⟩ : ∃ c cs, a.components = c :: cs :=
      List.exists_cons_of_length_pos (by rw [hlength, placeholders]; omega)
    exact .inr ⟨_, rest, _, .part hc, by simp, hread⟩
  | case3 c rest hsplice =>
    rw [read.eq_3 a c rest hsplice] at hread
    split at hread
    · next hc =>
      subst hc
      have hlength := hs.names
      obtain ⟨n, ns, hn⟩ : ∃ n ns, a.names = n :: ns :=
        List.exists_cons_of_length_pos (by rw [hlength, List.count_cons_self]; omega)
      exact .inr ⟨_, rest, _, .opening hn, by simp, hread⟩
    · next hopen =>
      split at hread
      · next hc =>
        subst hc
        obtain ⟨m, hm, hread⟩ := Option.bind_eq_some_iff.mp hread
        exact .inr ⟨_, rest, m, .closing hm, by simp, hread⟩
      · next hclose => exact .inr ⟨_, rest, _, .plain hsplice hopen hclose, by simp, hread⟩

/-- What was assembled stays in front of what follows. -/
theorem exists_source (hread : read text a = some b) (hs : a.Supplied D text) :
    ∃ r, b.source.reverse = a.source.reverse ++ r := by
  induction hn : text.length using Nat.strong_induction_on generalizing text a with
  | _ n ih =>
    rcases read_cases hread hs with ⟨-, -, rfl⟩ | ⟨w, rest, m, hstep, hlt, hread⟩
    · exact ⟨[], (List.append_nil _).symm⟩
    · obtain ⟨r, hr⟩ := ih _ (hn ▸ hlt) hread (hstep.supplied hs) rfl
      exact ⟨w ++ r, by rw [hr, hstep.source]; simp⟩

/-- What a step writes stands where it was assembled. -/
theorem Step.append (h : Step a text w rest m) (hs : a.Supplied D text) (hread : read rest m = some b)
    {r : List Char} (hr : b.source.reverse = a.source.reverse ++ r) :
    ∃ r', r = w ++ r' ∧ b.source.reverse = m.source.reverse ++ r' := by
  obtain ⟨r', hr'⟩ := exists_source hread (h.supplied hs)
  refine ⟨r', ?_, hr'⟩
  rw [hr', h.source, List.reverse_append, List.reverse_reverse, List.append_assoc] at hr
  exact (List.append_cancel_left hr).symm

/-- The source goes on with a `?` only where the template does. -/
theorem head?_of_read (hread : read text a = some b) (hs : a.Supplied D text) {r : List Char}
    (hr : b.source.reverse = a.source.reverse ++ r) (h : text.head? ≠ some '?') :
    r.head? ≠ some '?' := by
  rcases read_cases hread hs with ⟨-, -, rfl⟩ | ⟨w, rest, m, hstep, -, hread⟩
  · rw [List.append_cancel_left (hr.symm.trans (List.append_nil _).symm)]
    exact nofun
  · obtain ⟨r', rfl, -⟩ := hstep.append hs hread hr
    cases hstep with
    | part | opening | closing => exact nofun
    | plain => exact h

/-! ### Levels -/

/-- The open parts with what is finished inside of them, the innermost first, as levels. -/
def shape (D : Dialect) (a : Assembly E) : List (Bool × D.Flags × List Nest) :=
  (a.opened.map fun o => (true, D.initial, Part.nests o.children)) ++
    [(false, D.initial, Part.nests a.roots)]

/-- Finished parts go to the innermost level. -/
theorem shape_add (D : Dialect) (a : Assembly E) (ps : List Part) : ∃ captures f ts ls,
    a.shape D = (captures, f, ts) :: ls ∧
      (a.add ps).shape D = (captures, f, ts ++ Part.nests ps) :: ls := by
  rw [add]
  split
  · next h =>
    refine ⟨false, D.initial, Part.nests a.roots, [], ?_, ?_⟩ <;>
      simp [shape, h, Part.nests_append]
  · next o os h =>
    refine ⟨true, D.initial, Part.nests o.children, ?_, ?_, ?_⟩
    rotate_left
    · rw [shape, h]
      rfl
    · simp [shape, Part.nests_append]

/-- `s` has read what was assembled so far, and its levels are those of the assembly. -/
structure Follows (a : Assembly E) (s : State D) : Prop where
  flags : s.flags = D.initial
  shape : s.shape = a.shape D

theorem Follows.start (D : Dialect) (names : List PartName) (components : List (Component E)) :
    (Assembly.start names components).Follows (State.start D) := ⟨rfl, rfl⟩

/-- A finished part goes where a group goes that is nested like it. -/
theorem Follows.push (h : a.Follows s) (ps : List Part) {p : Regex D.Atom}
    (hp : p.nests = Part.nests ps) : (a.add ps).Follows (s.push p) := by
  obtain ⟨captures, f, ts, ls, hbefore, hafter⟩ := shape_add D a ps
  refine ⟨h.flags, ?_⟩
  have hs := h.shape.trans hbefore
  rw [State.shape, List.map_cons] at hs
  obtain ⟨htop, hls⟩ := List.cons.inj hs
  rw [hafter, ← hls, ← hp, State.shape, State.push, List.map_cons, Level.shape, Level.nests_push]
  simp only [Level.shape, Prod.mk.injEq] at htop
  obtain ⟨rfl, rfl, rfl⟩ := htop
  rfl

theorem Follows.openGroup (h : a.Follows s) {name : PartName} {names : List PartName}
    (hn : a.names = name :: names) : a.openGroup.Follows (s.openGroup true D.initial) := by
  rw [Assembly.openGroup, hn]
  refine ⟨rfl, ?_⟩
  have hs := h.shape
  rw [State.shape] at hs
  rw [State.shape, State.openGroup, List.map_cons, hs, h.flags]
  rfl

theorem Follows.closeGroup (h : a.Follows s) (hm : a.closeGroup = some m) :
    ∃ s', s.closeGroup = some s' ∧ m.Follows s' := by
  obtain ⟨o, os, ho, rfl⟩ := closeGroup_eq_some hm
  have hs := h.shape
  rw [State.shape, Assembly.shape, ho, List.map_cons, List.map_cons, List.cons_append] at hs
  obtain ⟨htop, hls⟩ := List.cons.inj hs
  simp only [Level.shape, Prod.mk.injEq] at htop
  obtain ⟨hcaptures, hflags, hnests⟩ := htop
  cases hbelow : s.below with
  | nil =>
    rw [hbelow] at hls
    simp at hls
  | cons l ls =>
    rw [hbelow] at hls
    have inner : ({ a with opened := os } : Assembly E).Follows (⟨s.top.flags, l, ls⟩ : State D) :=
      ⟨hflags, hls⟩
    have hpush := inner.push [⟨o.name, o.group, o.children⟩]
      (p := .group s.top.captures s.top.body) (by
        rw [hcaptures, Regex.nests, Level.nests_body, hnests, Part.nests, Part.nests, Part.nest])
    exact ⟨_, by rw [State.closeGroup, hbelow]; rfl, hpush.flags, hpush.shape⟩

/-! ### Pieces of a template -/

/-- A piece of the source with no parenthesis outside of sets is a piece of the template. -/
theorem exists_covered {p : Place} {r : List Char} (hread : read text a = some b)
    (hs : a.Supplied D text) (hregular : isRegularFrom p text)
    (hr : b.source.reverse = a.source.reverse ++ (w ++ r)) (hw : p.Covers w) :
    ∃ rest, text = w ++ rest ∧ isRegularFrom .outside rest ∧
      ({ a with source := w.reverse ++ a.source } : Assembly E).Supplied D rest ∧
        read rest { a with source := w.reverse ++ a.source } = some b := by
  induction w generalizing p text a with
  | nil =>
    obtain rfl : p = .outside := hw
    exact ⟨text, rfl, hregular, hs, hread⟩
  | cons x w ih =>
    obtain ⟨hx, hw⟩ := hw
    rcases read_cases hread hs with ⟨-, -, rfl⟩ | ⟨v, rest, m, hstep, -, hread⟩
    · have := List.append_cancel_left (hr.symm.trans (List.append_nil _).symm)
      cases this
    · obtain ⟨r', hrest, hr'⟩ := hstep.append hs hread hr
      have hm := hstep.supplied hs
      -- the template has no parenthesis and no part here, as it is regular
      cases hstep with
      | part hc =>
        exact absurd (List.cons.inj hrest).1 (hx (isRegularFrom_part.mp hregular).1).1
      | opening hn =>
        exact absurd (List.cons.inj hrest).1 (hx (isRegularFrom_opening.mp hregular).1).1
      | closing hc =>
        exact absurd (List.cons.inj hrest).1 (hx (isRegularFrom_closing.mp hregular).1).2
      | plain hsplice hopen hclose =>
        rw [isRegularFrom_plain hsplice hopen hclose] at hregular
        obtain ⟨rfl, rfl⟩ := List.cons.inj hrest
        obtain ⟨rest', rfl, h⟩ := ih hread hm hregular hr' hw
        refine ⟨rest', rfl, ?_⟩
        rw [List.reverse_cons, List.append_assoc]
        exact h

/-- Where no parenthesis is next, both go on behind the piece that starts there. -/
theorem Follows.piece (hD : D.Standard) {c : Char} {r : List Char} (h : a.Follows s) (hopen : c ≠ '(')
    (hclose : c ≠ ')') (hread : Assembly.read text a = some b) (hs : a.Supplied D text)
    (hregular : isRegularFrom .outside text) (hr : b.source.reverse = a.source.reverse ++ c :: r)
    (he : s.Reads (c :: r) e []) :
    ∃ (a' : Assembly E) (s' : State D) (rest r' : List Char), a'.Follows s' ∧
      Assembly.read rest a' = some b ∧ a'.Supplied D rest ∧ isRegularFrom .outside rest ∧
        b.source.reverse = a'.source.reverse ++ r' ∧ s'.Reads r' e [] ∧
          rest.length < text.length := by
  cases he with
  | step hnext htake he =>
    rw [h.flags] at hnext
    obtain ⟨rfl, hplain, w, hw, hcovers⟩ := hD.other hopen hclose hnext
    obtain ⟨hflags, hshape⟩ := State.take_plain hplain htake
    rw [hw] at hr
    obtain ⟨rest, rfl, hregular', hs', hread'⟩ := exists_covered hread hs hregular hr hcovers
    have hpos : w ≠ [] := by
      rintro rfl
      obtain ⟨v, hv, hc⟩ := hD.advances hnext
      rw [hw, List.nil_append] at hc
      exact hv (List.append_left_eq_self.mp hc.symm)
    refine ⟨{ a with source := w.reverse ++ a.source }, _, rest, _, ⟨hflags, hshape.trans h.shape⟩,
      hread', hs', hregular', ?_, he, ?_⟩
    · rw [List.reverse_append, List.reverse_reverse, List.append_assoc]
      exact hr
    · rw [List.length_append]
      exact Nat.lt_add_of_pos_left (List.length_pos_iff.mpr hpos)

/-! ### Runs -/

/-- A reading of the whole source follows a regular template to its end. -/
theorem Follows.read (hD : D.Standard) {r : List Char} (h : a.Follows s)
    (hread : Assembly.read text a = some b) (hs : a.Supplied D text)
    (hregular : isRegularFrom .outside text) (hr : b.source.reverse = a.source.reverse ++ r)
    (he : s.Reads r e []) : b.Follows e ∧ b.opened = [] := by
  induction hn : text.length using Nat.strong_induction_on generalizing text a s r with
  | _ n ih =>
    subst hn
    rcases read_cases hread hs with ⟨rfl, ho, rfl⟩ | ⟨w, rest, m, hstep, hlt, hread'⟩
    · obtain rfl : r = [] := List.append_cancel_left (hr.symm.trans (List.append_nil _).symm)
      obtain ⟨rfl, -⟩ := he.of_nil hD
      exact ⟨h, ho⟩
    · obtain ⟨r', rfl, hr'⟩ := hstep.append hs hread' hr
      have hm := hstep.supplied hs
      have next {s' : State D} (h' : m.Follows s') (hregular' : isRegularFrom .outside rest)
          (hw : s.Reads (w ++ r') s' r') : b.Follows e ∧ b.opened = [] :=
        ih _ hlt h' hread' hm hregular' hr' (hw.rest hD he) rfl
      cases hstep with
      | @part c cs _ hc =>
        obtain ⟨p, hp, hnests⟩ := hs.agrees c (hc ▸ List.mem_cons_self)
        refine next ?_ (isRegularFrom_part.mp hregular).2 (hp.reads hD h.flags r')
        have hpush := h.push (Part.shifts a.allocated c.parts) (p := .group false p)
          (hnests.trans (Part.nests_shifts _ _).symm)
        rw [Assembly.splice, hc]
        exact ⟨hpush.flags, hpush.shape⟩
      | opening hname =>
        obtain ⟨-, hmark, hregular'⟩ := isRegularFrom_opening.mp hregular
        refine next (h.openGroup hname) hregular' (.single (p := .opening true) ?_ rfl)
        rw [h.flags]
        exact hD.capture (head?_of_read hread' hm hr' hmark)
      | closing hclose =>
        obtain ⟨s', hs', h'⟩ := h.closeGroup hclose
        obtain ⟨g, hnext⟩ := hD.closing s.flags r'
        exact next h' (isRegularFrom_closing.mp hregular).2 (.single (p := .closing) hnext hs')
      | plain _ hopen hclose =>
        obtain ⟨a', s', rest', r'', h', hread'', hs', hregular', hr'', he', hlt'⟩ :=
          h.piece hD hopen hclose hread hs hregular hr he
        exact ih _ hlt' h' hread'' hs' hregular' hr'' he' rfl

end Assembly

/-! ### Components -/

variable {c : Component E}

/-- What compiles can be enclosed. -/
theorem exists_counted (hE : E.Counts D) (hD : D.Standard) (c : Component E) :
    ∃ p, D.Enclosed c.source p ∧ c.captureCount = p.captures := by
  obtain ⟨p, hp, -⟩ := hE _ _ c.anywhere_eq
  obtain ⟨q, hq, hcount⟩ := hE _ _ c.front_eq
  have h : D.Enclosed c.source p := ⟨hp, q, hq⟩
  obtain ⟨x, -, hstart⟩ := hD.textStart
  refine ⟨p, h, hcount.trans ?_⟩
  rw [hq.unique hD (h.parses_front hD hstart), Regex.captures, Regex.captures, Regex.captures, Nat.zero_add]

theorem leaf_agrees (hD : D.Standard) (hE : E.Counts D) {description form : String}
    (h : leaf description form = .ok c) : c.Agrees D := by
  obtain ⟨p, hp, hcount⟩ := exists_counted hE hD c
  obtain ⟨hzero, -, hparts⟩ := leaf_eq_ok h
  refine ⟨p, hp, ?_⟩
  have hsizes : Nest.sizes p.nests = 0 := by rw [Regex.sizes_nests, ← hcount, hzero]
  rw [hparts, Part.nests]
  cases hn : p.nests with
  | nil => rfl
  | cons t ts =>
    obtain ⟨inside⟩ := t
    rw [hn, Nest.sizes, Nest.size] at hsizes
    omega

theorem compose_agrees (hD : D.Standard) (hE : E.Counts D) {description template : String}
    {names : List PartName} {parts : List (Component E)} (hregular : isRegular template)
    (h : compose description template names parts = .ok c) (hparts : ∀ p ∈ parts, p.Agrees D) :
    c.Agrees D := by
  obtain ⟨p, hp, -⟩ := exists_counted hE hD c
  obtain ⟨hnames, hcomponents, a, ha, hsource, hroots⟩ := compose_eq_ok h
  obtain ⟨e, he, hbelow, hbody⟩ := hp.parses
  rw [hsource] at he
  obtain ⟨hfollows, hopened⟩ := (Assembly.Follows.start D names parts).read hD ha
    ⟨hnames, hcomponents, hparts⟩ hregular (List.nil_append _).symm he
  refine ⟨p, hp, ?_⟩
  have hshape := hfollows.shape
  rw [State.shape, hbelow, Assembly.shape, hopened] at hshape
  have htop := (List.cons.inj hshape).1
  simp only [Level.shape, Prod.mk.injEq] at htop
  rw [hbody, Level.nests_body, hroots, htop.2.2]

theorem Regular.agrees (hD : D.Standard) (hE : E.Counts D) (h : Regular c) : c.Agrees D := by
  induction h with
  | leaf h => exact leaf_agrees hD hE h
  | compose hregular h _ ih => exact compose_agrees hD hE hregular h ih

theorem Regular.built (h : Regular c) : Built c := by
  induction h with
  | leaf h => exact .leaf h
  | compose _ h _ ih => exact .compose h ih

/-- A component of regular templates has as many capture groups as named groups, whatever its engine
compiles. The source is read as one expression. The capture groups of that, numbered in the order in
which they open, are the named groups with their numbers, and they are nested in the same way. -/
theorem Regular.groups_agree (hD : D.Standard) (hE : E.Counts D) (h : Regular c) :
    ∃ p, (∀ q, D.Parses c.source q ↔ q = p) ∧
      c.captureCount = c.groupCount ∧
      p.captures = c.groupCount ∧
      (Part.preorders c.parts).map Part.group = List.range' 1 c.groupCount ∧
      p.groupTrees = Part.groupTrees c.parts := by
  obtain ⟨p, hp, hnests⟩ := h.agrees hD hE
  obtain ⟨q, hq, hcount⟩ := exists_counted hE hD c
  obtain rfl := hq.parses.unique hD hp.parses
  have hcaptures : q.captures = c.groupCount := by
    rw [← Regex.sizes_nests, hnests, Part.sizes_nests, groupCount]
  refine ⟨q, fun r => ⟨fun hr => hr.unique hD hp.parses, fun hr => hr ▸ hp.parses⟩,
    hcount.trans hcaptures, hcaptures, h.built.numbers, ?_⟩
  rw [Regex.groupTrees, hnests, Part.groupTrees_eq c.parts 0 h.built.numbers]

/-- Alternatives, sets and escapes beside the groups. -/
def signed : Except GrammarFault Component := do
  let digit ← leaf "digit" "[0-9]|\\("
  let power ← compose "power" "[*^](%s)+\\." [.exponent] [digit]
  compose "signed" "(-|(%s))%s" [.number, .scientific] [power, power]

theorem signed_groups_agree : Pattern.dialect.Standard ∧ Pattern.engine.Counts Pattern.dialect ∧
    ∃ c p, signed = .ok c ∧ Regular c ∧ c.groupCount = 4 ∧ c.captureCount = 4 ∧
      Pattern.dialect.Parses c.source p ∧ p.groupTrees = Part.groupTrees c.parts := by
  have hparts : signed.map Component.parts = .ok
      [⟨.number, 1, [⟨.scientific, 2, [⟨.exponent, 3, []⟩]⟩]⟩, ⟨.exponent, 4, []⟩] := by
    decide +kernel
  obtain ⟨c, hc, hparts⟩ := map_eq_ok hparts
  obtain ⟨digit, hdigit, h⟩ := bind_eq_ok hc
  obtain ⟨power, hpower, h⟩ := bind_eq_ok h
  have hp : Regular power := .compose (by decide) hpower fun p hp =>
    List.mem_singleton.mp hp ▸ .leaf hdigit
  have hr : Regular c := .compose (by decide) h fun p hm => by
    simp only [List.mem_cons, List.not_mem_nil, or_false, or_self] at hm
    exact hm ▸ hp
  have hcount : c.groupCount = 4 := by
    rw [groupCount, hparts]
    decide
  obtain ⟨p, hsource, hcaptures, -, -, htrees⟩ :=
    hr.groups_agree Pattern.dialect_standard Pattern.engine_counts
  exact ⟨Pattern.dialect_standard, Pattern.engine_counts, c, p, hc, hr, hcount,
    hcaptures.trans hcount, (hsource p).mpr rfl, htrees⟩

/-- In a template that is not regular a parenthesis can be a name without a group. -/
example : ((compose "plain" "\\(-\\)" [.integer] [] : Except GrammarFault Component).map
    fun c => (c.groupCount, c.captureCount)) = .ok (1, 0) := by decide +kernel

end Component

end Reckon
