import Mathlib
import Reckon.Function.Builtin
import Reckon.Proofs.Lists

/-!
# The earliest registration wins

A table is built by a sequence of registrations of any names, which it sorts by name. What it keeps of
a name is the registrations of this name in their order (`overloads_registerAll`), and among those of
other names the order does not matter. So the first registration in the sequence that answers for a
name and a number of arguments is the first one in the table as well
(`lookup_ofRegistrations`), whatever stands between the registrations of one name.
-/

namespace Reckon

/-! ### Sorted names -/

theorem pairwise_insertName {names : List String} (h : names.Pairwise (· < ·)) (name : String) :
    (insertName name names).Pairwise (· < ·) := by
  induction names with
  | nil => exact List.pairwise_singleton _ name
  | cons n ns ih =>
    obtain ⟨hn, hns⟩ := List.pairwise_cons.mp h
    rw [insertName]
    split
    · next hlt =>
      refine List.pairwise_cons.mpr ⟨fun m hm => ?_, h⟩
      rcases List.mem_cons.mp hm with rfl | hm
      · exact hlt
      · exact hlt.trans (hn m hm)
    · next hge =>
      split
      · exact h
      · next hne =>
        have hlt : n < name := lt_of_le_of_ne (not_lt.mp hge) (Ne.symm hne)
        refine List.pairwise_cons.mpr ⟨fun m hm => ?_, ih hns⟩
        rcases mem_insertName.mp hm with rfl | hm
        · exact hlt
        · exact hn m hm

theorem pairwise_sortedNames (names : List String) : (sortedNames names).Pairwise (· < ·) := by
  induction names with
  | nil => exact .nil
  | cons name names ih => exact pairwise_insertName ih name

/-- A set of names is listed in one way. -/
theorem sortedNames_eq_iff {names names' : List String} :
    sortedNames names = sortedNames names' ↔ ∀ n, n ∈ names ↔ n ∈ names' := by
  constructor
  · intro h n
    rw [← mem_sortedNames, h, mem_sortedNames]
  · intro h
    refine (pairwise_sortedNames names).eq_of_mem_iff (pairwise_sortedNames names') fun n => ?_
    rw [mem_sortedNames, mem_sortedNames, h]

/-! ### Registrations -/

structure Registration where
  name : String
  arity : Arity
  operation : Operation

namespace Registration

def overload (r : Registration) : Overload := ⟨r.arity, r.operation⟩

/-- Is it one of the name that accepts the number of arguments? -/
def Answers (r : Registration) (name : String) (count : Nat) : Prop :=
  r.name = name ∧ r.arity.accepts count

instance (r : Registration) (name : String) (count : Nat) : Decidable (r.Answers name count) :=
  inferInstanceAs (Decidable (_ ∧ _))

end Registration

namespace FunctionTable

variable {rs rs' : List Registration} {r s : Registration}

/-- The table after some more registrations, one after the other. -/
def registerAll (t : FunctionTable) (rs : List Registration) : FunctionTable :=
  rs.foldl (fun t r => t.register r.name r.arity r.operation) t

def ofRegistrations (rs : List Registration) : FunctionTable := empty.registerAll rs

/-! ### What a registration adds -/

theorem lookup_add (name : String) (o : Overload) (entries : List (String × List Overload))
    (n : String) : (add name o entries).lookup n =
      if n = name then some ((entries.lookup n).getD [] ++ [o]) else entries.lookup n := by
  induction entries with
  | nil =>
    rw [add, lookup_cons_ite]
    rfl
  | cons entry entries ih =>
    obtain ⟨m, os⟩ := entry
    rw [add]
    by_cases hm : m = name
    · subst hm
      rw [if_pos rfl, lookup_cons_ite, lookup_cons_ite]
      by_cases hn : n = m
      · simp [hn]
      · simp [hn]
    · rw [if_neg hm, lookup_cons_ite, lookup_cons_ite, ih]
      by_cases hn : n = m
      · subst hn
        simp [hm]
      · simp [hn]

theorem overloads_register (t : FunctionTable) (r : Registration) (n : String) :
    (t.register r.name r.arity r.operation).overloads n =
      t.overloads n ++ if r.name = n then [r.overload] else [] := by
  show ((add r.name r.overload t.entries).lookup n).getD [] = _
  rw [lookup_add]
  by_cases hn : n = r.name
  · rw [if_pos hn, if_pos hn.symm]
    rfl
  · rw [if_neg hn, if_neg (Ne.symm hn), List.append_nil]
    rfl

theorem contains_register (t : FunctionTable) (r : Registration) (n : String) :
    (t.register r.name r.arity r.operation).contains n ↔ t.contains n ∨ r.name = n := by
  show ((add r.name r.overload t.entries).lookup n).isSome ↔ _
  rw [lookup_add]
  by_cases hn : n = r.name
  · simp [hn]
  · rw [if_neg hn, or_iff_left (Ne.symm hn)]
    rfl

/-! ### What a sequence of registrations gives -/

/-- The registrations of a name are behind those that the name had, in their order. -/
theorem overloads_registerAll (t : FunctionTable) (rs : List Registration) (n : String) :
    (t.registerAll rs).overloads n =
      t.overloads n ++ (rs.filter fun r => r.name = n).map Registration.overload := by
  induction rs generalizing t with
  | nil => exact (List.append_nil _).symm
  | cons r rs ih =>
    show ((t.register r.name r.arity r.operation).registerAll rs).overloads n = _
    rw [ih, overloads_register, List.filter_cons, List.append_assoc]
    by_cases hn : r.name = n <;> simp [hn]

theorem contains_registerAll (t : FunctionTable) (rs : List Registration) (n : String) :
    (t.registerAll rs).contains n ↔ t.contains n ∨ ∃ r ∈ rs, r.name = n := by
  induction rs generalizing t with
  | nil => simp [registerAll]
  | cons r rs ih =>
    show ((t.register r.name r.arity r.operation).registerAll rs).contains n ↔ _
    rw [ih, contains_register, or_assoc, List.exists_mem_cons_iff]

/-- A look-up finds the first registration that answers. -/
theorem lookup_ofRegistrations (rs : List Registration) (name : String) (count : Nat) :
    (ofRegistrations rs).lookup name count =
      (rs.find? fun r => r.Answers name count).map fun r => ⟨name, count, r.operation⟩ := by
  rw [lookup, ofRegistrations, overloads_registerAll]
  show Option.map _ (List.find? _ ((rs.filter fun r => r.name = name).map Registration.overload)) = _
  rw [List.find?_map, Option.map_map, List.find?_filter]
  refine congrArg _ (congrArg (fun p => rs.find? p) (funext fun r => ?_))
  rw [decide_eq_decide, decide_eq_true_eq]
  exact Iff.rfl

theorem mem_names_iff (t : FunctionTable) (n : String) :
    n ∈ t.entries.map Prod.fst ↔ t.contains n := by
  rw [contains]
  induction t.entries with
  | nil => simp
  | cons entry entries ih =>
    rw [List.map_cons, List.mem_cons, ih, lookup_cons_ite]
    by_cases hn : n = entry.1 <;> simp [hn]

theorem names_ofRegistrations (rs : List Registration) :
    (ofRegistrations rs).names = sortedNames (rs.map Registration.name) := by
  refine sortedNames_eq_iff.mpr fun n => ?_
  rw [mem_names_iff, ofRegistrations, contains_registerAll, List.mem_map]
  exact or_iff_right Bool.false_ne_true

/-! ### The order of registrations -/

/-- The registrations of each name matter, not how those of different names follow each other. -/
theorem lookup_congr (h : ∀ n, (rs.filter fun r => r.name = n) = rs'.filter fun r => r.name = n) :
    (ofRegistrations rs).lookup = (ofRegistrations rs').lookup := by
  funext name count
  rw [lookup, lookup, ofRegistrations, ofRegistrations, overloads_registerAll, overloads_registerAll,
    h name]

theorem filter_swap (h : r.name ≠ s.name) (earlier later : List Registration) (n : String) :
    ((earlier ++ r :: s :: later).filter fun r => r.name = n) =
      (earlier ++ s :: r :: later).filter fun r => r.name = n := by
  simp only [List.filter_append, List.filter_cons, decide_eq_true_eq]
  by_cases hr : r.name = n
  · have hs : ¬ s.name = n := fun hs => h (hr.trans hs.symm)
    simp only [hr, hs, if_true, if_false]
  · simp only [hr, if_false]

/-- Of the registrations that answer for a name and a number of arguments the earliest one is found,
wherever it stands in the sequence, and nothing is found if there is none. So later registrations do
not change what was found, and registrations of different names can change places. -/
theorem lookup_earliest (rs : List Registration) (name : String) (count : Nat) :
    (∀ f, (ofRegistrations rs).lookup name count = some f ↔ ∃ earlier r later,
      rs = earlier ++ r :: later ∧ r.Answers name count ∧
        (∀ s ∈ earlier, ¬ s.Answers name count) ∧ f = ⟨name, count, r.operation⟩) ∧
    ((ofRegistrations rs).lookup name count = none ↔ ∀ r ∈ rs, ¬ r.Answers name count) ∧
    (∀ f later, (ofRegistrations rs).lookup name count = some f →
      (ofRegistrations (rs ++ later)).lookup name count = some f) ∧
    ∀ earlier later r s, rs = earlier ++ r :: s :: later → r.name ≠ s.name →
      (ofRegistrations (earlier ++ s :: r :: later)).lookup = (ofRegistrations rs).lookup ∧
      (ofRegistrations (earlier ++ s :: r :: later)).names = (ofRegistrations rs).names := by
  refine ⟨fun f => ?_, ?_, fun f later h => ?_, ?_⟩
  · rw [lookup_ofRegistrations, Option.map_eq_some_iff]
    simp only [List.find?_eq_some_iff_append, decide_eq_true_eq, Bool.not_eq_true',
      decide_eq_false_iff_not]
    constructor
    · rintro ⟨r, ⟨hr, earlier, later, hrs, hearlier⟩, rfl⟩
      exact ⟨earlier, r, later, hrs, hr, hearlier, rfl⟩
    · rintro ⟨earlier, r, later, hrs, hr, hearlier, rfl⟩
      exact ⟨r, ⟨hr, earlier, later, hrs, hearlier⟩, rfl⟩
  · rw [lookup_ofRegistrations, Option.map_eq_none_iff, List.find?_eq_none]
    simp only [decide_eq_true_eq]
  · rw [lookup_ofRegistrations, Option.map_eq_some_iff] at h ⊢
    obtain ⟨r, hr, rfl⟩ := h
    exact ⟨r, by rw [List.find?_append, hr, Option.some_or], rfl⟩
  · rintro earlier later r s rfl h
    refine ⟨(lookup_congr (filter_swap h earlier later)).symm, ?_⟩
    rw [names_ofRegistrations, names_ofRegistrations]
    refine sortedNames_eq_iff.mpr fun n => List.Perm.mem_iff (List.Perm.map _ ?_)
    exact (List.Perm.swap r s later).append_left earlier

/-- Three registrations of `f`, of which the first one accepts no number of arguments and the others
overlap, with one of `g` between them. -/
theorem lookup_earliest_overlap :
    ∃ never one g many : Registration,
      never = ⟨"f", .range 3 2, Builtin.min⟩ ∧ one = ⟨"f", .range 1 2, Builtin.sum⟩ ∧
      g = ⟨"g", .exactly 2, Builtin.mod⟩ ∧ many = ⟨"f", .atLeast 2, Builtin.max⟩ ∧
      (ofRegistrations [never, one, g, many]).lookup "f" 2 = some ⟨"f", 2, Builtin.sum⟩ ∧
      (ofRegistrations [never, one, g, many]).lookup "f" 0 = none ∧
      (ofRegistrations ([never, one, g] ++ [many])).lookup "f" 2 = some ⟨"f", 2, Builtin.sum⟩ ∧
      one.name ≠ g.name ∧
      (ofRegistrations [never, g, one, many]).lookup = (ofRegistrations [never, one, g, many]).lookup := by
  refine ⟨_, _, _, _, rfl, rfl, rfl, rfl, ?_, ?_, ?_, by decide, ?_⟩
  · exact ((lookup_earliest _ "f" 2).1 _).mpr
      ⟨[_], _, [_, _], rfl, by decide, by decide, rfl⟩
  · exact (lookup_earliest _ "f" 0).2.1.mpr (by decide)
  · refine (lookup_earliest _ "f" 2).2.2.1 _ _ ?_
    exact ((lookup_earliest _ "f" 2).1 _).mpr ⟨[_], _, [_], rfl, by decide, by decide, rfl⟩
  · exact ((lookup_earliest _ "f" 2).2.2.2 [_] [_] _ _ rfl (by decide)).1

end FunctionTable

end Reckon
