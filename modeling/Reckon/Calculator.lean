import Reckon.Formula.Evaluate
import Reckon.Formula.Resolve
import Reckon.Function.Builtin

/-!
# The calculator

An input is parsed and resolved once and can then be evaluated for any values of its variables.
-/

namespace Reckon

/-- What can be wrong with an input or with the values given for it. -/
inductive Failure
  | parse (report : Report ParseFault)
  | resolve (report : Report ResolveFault)
  | evaluate (fault : EvalFault)
deriving DecidableEq, Repr

namespace Failure

def message : Failure → String
  | parse r => r.message ParseFault.headline
  | resolve r => r.message ResolveFault.headline
  | evaluate fault => fault.headline

def kind : Failure → Kind
  | parse r => r.cause.kind
  | resolve r => r.cause.kind
  | evaluate fault => fault.kind

end Failure

/-- The built-in functions and exact numbers. -/
def Resolver.standard : Resolver := ⟨Builtin.table.lookup, .exact⟩

structure Calculation where
  tree : Tree
  formula : Formula
  settings : Settings

namespace Calculation

def ofRaw (settings : Settings) (resolver : Resolver) (raw : String) :
    Except Failure Calculation := do
  let tree ← (Tree.ofRaw settings raw).mapError .parse
  let formula ← (resolver.ofTree settings tree).mapError .resolve
  return ⟨tree, formula, settings⟩

def evaluate (c : Calculation) (context : Context) : Except Failure Fraction :=
  (c.formula.evaluate c.settings context).mapError .evaluate

/-- The variables to give values for, sorted. -/
def variableNames (c : Calculation) : List String := c.formula.variableNames

end Calculation

/-- The value of an input, with the standard settings and functions. -/
def calculate (raw : String) (context : Context) : Except Failure Fraction := do
  let c ← Calculation.ofRaw {} .standard raw
  c.evaluate context

end Reckon
