import Reckon.Formula.Basic
import Reckon.Formula.Content
import Reckon.Tree.Scan

/-!
# From a tree to a formula

The content of an expression is read into steps, and each step takes the groups it needs from the
front of those that are left: a bare group one, a call one for each of its placeholders. A bare
group must hold a single expression. A call has all the expressions of its groups as arguments; the
function is looked up before the arguments are asked for. Content that is left over is reported
last, so the first cause in reading order wins.
-/

namespace Reckon

/-- What a formula depends on besides the tree. -/
structure Resolver where
  lookup : Lookup
  numbers : NumberReader

/-- A group and the formulas of its expressions. -/
structure ResolvedGroup where
  group : Group
  formulas : List (Except ResolveFault Formula)

/-- All the values, or the first fault. -/
def firstFault {ε α : Type} : List (Except ε α) → Except ε (List α)
  | [] => .ok []
  | .error fault :: _ => .error fault
  | .ok x :: xs => (firstFault xs).map (x :: ·)

namespace Resolver

/-- The element of an operand, and the groups that are left. -/
def element (r : Resolver) (e : Expression) (groups : List ResolvedGroup) (s : Step) :
    Except ResolveFault (Element × List ResolvedGroup) :=
  match s.operand with
  | .placeholder =>
    match groups with
    | [] => .error (.defect .missingGroup)
    | g :: left =>
      match g.formulas with
      | [formula] => formula.map fun f => (.group f, left)
      | _ => .error (.ambiguousGroup g.group.dimension g.group.start)
  | .call name count =>
    if groups.length < count then .error (.defect .missingGroup)
    else
      let arguments := (groups.take count).flatMap ResolvedGroup.formulas
      match r.lookup (String.ofList name) arguments.length with
      | none =>
        .error (.unknownFunction (String.ofList name) arguments.length (e.realPosition s.offset))
      | some f => (firstFault arguments).map fun xs => (.call f xs, groups.drop count)
  | .var name => .ok (.var (String.ofList name), groups)
  | .number literal none =>
    .error (.invalidNumber (String.ofList literal) "no number form matched")
  | .number _ (some parts) => (r.numbers parts.entries).map fun x => (.number x, groups)

/-- The elements of some steps, and the groups that are left. -/
def elements (r : Resolver) (e : Expression) :
    List ResolvedGroup → List Step → Except ResolveFault (Formula × List ResolvedGroup)
  | groups, [] => .ok ([], groups)
  | groups, s :: ss =>
    match r.element e groups s with
    | .error fault => .error fault
    | .ok (x, left) =>
      (elements r e left ss).map fun (later, left) =>
        ((s.operator.map Element.operator).toList ++ (if s.negated then [.negate] else []) ++
          x :: later, left)

/-- The formula of an expression whose groups are resolved. -/
def formula (r : Resolver) (e : Expression) (groups : List ResolvedGroup) :
    Except ResolveFault Formula :=
  match Reading.ofContent e.content with
  | .error d => .error (.defect d)
  | .ok none => .error (.noOperand (e.realPosition 0))
  | .ok (some reading) =>
    match r.elements e groups reading.steps with
    | .error fault => .error fault
    | .ok (f, _) =>
      if reading.stop < e.content.length then .error (.strayContent (e.realPosition reading.stop))
      else .ok f

mutual
def resolve (r : Resolver) : Expression → Except ResolveFault Formula
  | .mk start stop items => r.formula (.mk start stop items) (resolveItems r items)
def resolveItems (r : Resolver) : List Item → List ResolvedGroup
  | [] => []
  | .char _ :: items => resolveItems r items
  | .group g :: items => ⟨g, resolveGroup r g⟩ :: resolveItems r items
def resolveGroup (r : Resolver) : Group → List (Except ResolveFault Formula)
  | .mk _ _ _ children => resolveAll r children
def resolveAll (r : Resolver) : List Expression → List (Except ResolveFault Formula)
  | [] => []
  | e :: es => resolve r e :: resolveAll r es
end

/-- The formula of a tree, or a report of what is wrong with it. -/
def ofTree (r : Resolver) (settings : Settings) (t : Tree) : Except (Report ResolveFault) Formula :=
  (r.resolve t.root).mapError (t.text.report settings ResolveFault.carets)

end Resolver

end Reckon
