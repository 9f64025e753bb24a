/-!
# What can go wrong

Every stage answers with a cause of its own: a value that says what was wrong and where. The wording
of a cause is one function, `headline`, its class another, `kind`. A cause that points into the text
also has `carets`, the positions to mark; a `Report` pairs the cause with the rendered marks, so two
reports can agree on the cause and differ in the drawing alone.

Positions count characters of the stripped text.
-/

namespace Reckon

/-- The broad class of a cause. -/
inductive Kind
  | input
  | structural
  | grammar
  | resolution
  | arithmetic
  | evaluation
deriving DecidableEq, Repr

/-- A stage met a state that its predecessors rule out. No input leads to one. -/
inductive Defect
  | misplacedAppend (position expected : Nat)
  | missingGroup
  | missingOperator
  | missingOperand
  | missingNode
  | emptyGroup
  /-- A cut at an offset in bytes that is not between two characters. -/
  | splitCharacter (offset : Nat)
deriving DecidableEq, Repr

/-- A cause, with the drawing that marks its positions when it has any. -/
structure Report (Cause : Type) where
  cause : Cause
  diagnostic : Option String
deriving DecidableEq, Repr

/-- The first line names the cause, the drawing follows on lines of its own. -/
def Report.message {Cause : Type} (headline : Cause → String) (r : Report Cause) : String :=
  match r.diagnostic with
  | none => headline r.cause
  | some drawing => headline r.cause ++ "\n" ++ drawing

def quoted (c : Char) : String := "'" ++ c.toString ++ "'"

/-! ### Arithmetic -/

inductive ArithmeticFault
  | zeroDenominator
  | divideByZero
  | domain (reason : String)
deriving DecidableEq, Repr

namespace ArithmeticFault

def headline : ArithmeticFault → String
  | zeroDenominator => "ArithmeticError: denominator must not be zero"
  | divideByZero => "ArithmeticError: division by zero"
  | domain reason => "ArithmeticError: " ++ reason

def kind (_ : ArithmeticFault) : Kind := .arithmetic

end ArithmeticFault

/-! ### Text, brackets and number literals -/

inductive ParseFault
  | blankInput
  | reservedCharacter (character : Char) (positions : List Nat)
  | strayClose (token : Char) (position : Nat)
  | straySeparator (position : Nat)
  | wrongClose (expected found : Char) (start position : Nat)
  | missingExpression (position : Nat)
  | unclosed (pending : List (Char × Nat))
  | tooDeep (limit position : Nat)
  | caretOutOfRange (position length : Nat)
  | notANumber (literal : String)
  | arithmetic (fault : ArithmeticFault)
  | defect (what : Defect)
deriving DecidableEq, Repr

namespace ParseFault

def positionList (ps : List Nat) : String :=
  "[" ++ ", ".intercalate (ps.map Nat.repr) ++ "]"

/-- The brackets still to come, each with the position of the one it closes. -/
def pendingList (pending : List (Char × Nat)) : String :=
  ", ".intercalate (pending.map fun p => quoted p.1 ++ " for " ++ p.2.repr)

def headline : ParseFault → String
  | blankInput => "ParseError: the expression is empty"
  | reservedCharacter c ps =>
    "ParseError: reserved character " ++ quoted c ++ " used at " ++ positionList ps
  | strayClose token p => "ParseError: unexpected end token " ++ quoted token ++ " at " ++ p.repr
  | straySeparator p => "ParseError: unexpected dimension token ',' at " ++ p.repr
  | wrongClose expected found start p =>
    "ParseError: expression opened at " ++ start.repr ++ " expects " ++ quoted expected ++
      " but was closed by " ++ quoted found ++ " at " ++ p.repr
  | missingExpression p => "ParseError: expression expected before position " ++ p.repr
  | unclosed pending => "ParseError: unclosed expressions, expecting " ++ pendingList pending
  | tooDeep limit p => "ParseError: groups nested deeper than " ++ limit.repr ++ " at " ++ p.repr
  | caretOutOfRange p length =>
    "ParseError: position " ++ p.repr ++ " is out of range for length " ++ length.repr
  | notANumber literal => "ParseError: '" ++ literal ++ "' is not a valid number"
  | arithmetic fault => "ParseError: " ++ fault.headline
  | defect _ => "ParseError: internal defect"

def kind : ParseFault → Kind
  | blankInput | reservedCharacter .. => .input
  | notANumber _ => .resolution
  | arithmetic _ => .arithmetic
  | _ => .structural

/-- The positions a drawing marks, for the causes that have a drawing. -/
def carets : ParseFault → Option (List Nat)
  | reservedCharacter _ ps => some ps
  | strayClose _ p | straySeparator p | missingExpression p | tooDeep _ p => some [p]
  | wrongClose _ _ start p => some [start, p]
  | unclosed pending => some (pending.map Prod.snd)
  | _ => none

/-- The position of the character that cannot stand where it does, for the causes that blame one. -/
def culprit? : ParseFault → Option Nat
  | strayClose _ p | straySeparator p | missingExpression p | tooDeep _ p => some p
  | wrongClose _ _ _ p => some p
  | _ => none

end ParseFault

/-! ### Reading the content of expressions -/

inductive ResolveFault
  | noOperand (position : Nat)
  | strayContent (position : Nat)
  | unknownFunction (name : String) (arity position : Nat)
  | ambiguousGroup (dimension position : Nat)
  | invalidNumber (literal reason : String)
  | defect (what : Defect)
deriving DecidableEq, Repr

namespace ResolveFault

def headline : ResolveFault → String
  | noOperand p => "ResolveError: expression does not start with a unary operation at " ++ p.repr
  | strayContent p => "ResolveError: unexpected content in operation at " ++ p.repr
  | unknownFunction name arity p =>
    "ResolveError: unknown method '" ++ name ++ "' with " ++ arity.repr ++ " argument(s) at " ++
      p.repr
  | ambiguousGroup dimension p =>
    "ResolveError: sub-expression at " ++ p.repr ++ " has " ++ dimension.repr ++
      " dimensions where exactly 1 is required"
  | invalidNumber literal reason => "ResolveError: invalid number '" ++ literal ++ "': " ++ reason
  | defect _ => "ResolveError: internal defect"

def kind (_ : ResolveFault) : Kind := .resolution

/-- The positions a drawing marks, for the causes that have a drawing. -/
def carets : ResolveFault → Option (List Nat)
  | noOperand p | strayContent p | unknownFunction _ _ p | ambiguousGroup _ p => some [p]
  | _ => none

end ResolveFault

/-! ### Composing patterns -/

inductive GrammarFault
  | groupCount (description : String) (groups names : Nat)
  | placeholderCount (description : String) (placeholders parts : Nat)
  | unbalanced (description : String)
  | invalidPattern (description : String)
deriving DecidableEq, Repr

namespace GrammarFault

def headline : GrammarFault → String
  | groupCount description groups names =>
    "GrammarError: '" ++ description ++ "' opens " ++ groups.repr ++ " group(s) but names " ++
      names.repr
  | placeholderCount description placeholders parts =>
    "GrammarError: '" ++ description ++ "' has " ++ placeholders.repr ++ " placeholder(s) but " ++
      parts.repr ++ " part(s)"
  | unbalanced description =>
    "GrammarError: '" ++ description ++ "' closes a group that was never opened"
  | invalidPattern description => "GrammarError: '" ++ description ++ "' does not compile"

def kind (_ : GrammarFault) : Kind := .grammar

end GrammarFault

/-! ### Evaluation -/

inductive EvalFault
  | unknownVariable (name : String)
  | fractionalExponent (exponent : String)
  | exponentTooLarge (exponent : String) (limit : Nat)
  | resultTooLarge (limit : Nat)
  | arithmetic (fault : ArithmeticFault)
  | function (name : String) (fault : ArithmeticFault)
  | nothingToEvaluate
deriving DecidableEq, Repr

namespace EvalFault

def headline : EvalFault → String
  | unknownVariable name => "NameError: name '" ++ name ++ "' is not defined"
  | fractionalExponent exponent => "EvalError: exponent " ++ exponent ++ " is not an integer"
  | exponentTooLarge exponent limit =>
    "EvalError: exponent " ++ exponent ++ " exceeds the limit of " ++ limit.repr
  | resultTooLarge limit => "EvalError: power result would exceed " ++ limit.repr ++ " bits"
  | arithmetic fault => fault.headline
  | function name fault => "EvalError: function '" ++ name ++ "' failed: " ++ fault.headline
  | nothingToEvaluate => "EvalError: nothing to evaluate"

def kind : EvalFault → Kind
  | arithmetic _ | function .. => .arithmetic
  | _ => .evaluation

end EvalFault

/-! ### A value or a fault -/

section
variable {ε ε' α β : Type} {m : Except ε α}

theorem bind_eq_ok {k : α → Except ε β} {y : β} (h : m >>= k = .ok y) :
    ∃ x, m = .ok x ∧ k x = .ok y := by
  rcases m with fault | x
  · cases h
  · exact ⟨x, rfl, h⟩

theorem bind_eq_error {k : α → Except ε β} {fault : ε} (h : m >>= k = .error fault) :
    m = .error fault ∨ ∃ x, m = .ok x ∧ k x = .error fault := by
  rcases m with fault' | x
  · exact .inl (congrArg Except.error (Except.error.inj h))
  · exact .inr ⟨x, rfl, h⟩

theorem bind_ne_error {k : α → Except ε β} {fault : ε} (hm : m ≠ .error fault)
    (hk : ∀ x, k x ≠ .error fault) : m >>= k ≠ .error fault := by
  rcases m with fault' | x
  · exact fun h => hm (congrArg Except.error (Except.error.inj h))
  · exact hk x

theorem bind_congr_ok {k l : α → Except ε β} (h : ∀ x, m = .ok x → k x = l x) :
    m >>= k = m >>= l := by
  rcases m with fault | x
  · rfl
  · exact h x rfl

/-- Outcomes that agree as `g` sees them are both faults, the same one, or both values. -/
theorem map_eq_map {m n : Except ε α} {g : α → β} (h : m.map g = n.map g) :
    (∃ fault, m = .error fault ∧ n = .error fault) ∨
      ∃ x y, m = .ok x ∧ n = .ok y ∧ g x = g y := by
  rcases m with fault | x <;> rcases n with fault' | y
  · exact .inl ⟨fault, rfl, congrArg Except.error (Except.error.inj h).symm⟩
  · cases h
  · cases h
  · exact .inr ⟨x, y, rfl, rfl, Except.ok.inj h⟩

theorem map_eq_ok {k : α → β} {y : β} (h : m.map k = .ok y) : ∃ x, m = .ok x ∧ k x = y := by
  rcases m with fault | x
  · cases h
  · exact ⟨x, rfl, Except.ok.inj h⟩

theorem map_eq_error {k : α → β} {fault : ε} (h : m.map k = .error fault) : m = .error fault := by
  rcases m with fault' | x
  · exact congrArg Except.error (Except.error.inj h)
  · cases h

theorem mapError_eq_ok_iff {k : ε → ε'} {x : α} : m.mapError k = .ok x ↔ m = .ok x := by
  rcases m with fault | y
  · constructor <;> intro h <;> cases h
  · constructor <;> intro h <;> cases h <;> rfl

theorem mapError_eq_error {k : ε → ε'} {fault' : ε'} (h : m.mapError k = .error fault') :
    ∃ fault, m = .error fault ∧ k fault = fault' := by
  rcases m with fault | x
  · exact ⟨fault, rfl, Except.error.inj h⟩
  · cases h

end

end Reckon
