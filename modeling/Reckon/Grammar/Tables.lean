import Reckon.Grammar.Component

/-!
# The grammar of numbers and operations

A number has one of five forms, from `-13` over `1.5` and `0.1{6}R` to `3.2E-4` and `3.{2}RE-4`. A
leading zero, a trailing zero of a fraction and a repeating block of zeros are no part of any form,
and neither is `-0` unless a fraction follows. An operation is an operand, possibly negated and
possibly after a binary operator. Groups do not occur in it: each stands as a placeholder.

Operands are tried in the order placeholder, call, variable, number, and numbers with the most
specific form first.
-/

namespace Reckon

structure Grammar where
  integer : Component
  decimal : Component
  repeatingDecimal : Component
  scientific : Component
  repeatingScientific : Component
  anyNumber : Component
  unaryOperation : Component
  binaryOperator : Component
  binaryOperation : Component
  aggregationToken : Component

namespace Grammar

open Component in
/-- Assembles the grammar from its tables. -/
def build : Except GrammarFault Grammar := do
  let cipher ← leaf "cipher" "[0-9]"
  let nonZeroCipher ← leaf "non zero cipher" "[1-9]"
  let minus ← leaf "negation" "-"
  let placeholder ← leaf "sub expression placeholder" "\\$"
  let name ← leaf "name" "[a-zA-Z_][a-zA-Z_0-9]*"
  let operator ← leaf "binary operator" "[-+*/^]"
  let aggregation ← leaf "aggregation token" "[\x7b\x7d()\\[\\],]"

  let positiveInteger ← compose "positive integer" "%s%s*" [] [nonZeroCipher, cipher]
  let unsignedInteger ← compose "unsigned integer" "%s|0" [] [positiveInteger]
  let signedInteger ← compose "integer" "%s?%s|0" [] [minus, positiveInteger]
  let wholePart ← compose "integer part" "%s?%s" [] [minus, unsignedInteger]
  let mantissa ← compose "mantissa" "%s?%s" [] [minus, nonZeroCipher]
  let plainDigits ← compose "fraction non repeating" "%s*%s" [] [cipher, nonZeroCipher]
  let repeatingDigits ←
    compose "fraction repeating" "%s*%s+%s*" [] [cipher, nonZeroCipher, cipher]
  let suffix ← compose "repeating fraction suffix" "(%s)?\\\x7b(%s)\\\x7dR"
    [.plainFraction, .repeatingFraction] [plainDigits, repeatingDigits]

  let integerNumber ← compose "integer number" "(%s)" [.integerPart] [signedInteger]
  let decimalNumber ← compose "decimal" "(%s)\\.(%s)"
    [.integerPart, .plainFraction] [wholePart, plainDigits]
  let decimalRepeating ← compose "decimal with repeating fraction" "(%s)\\.%s"
    [.integerPart] [wholePart, suffix]
  let scientificNumber ← compose "scientific" "(%s)(\\.(%s))?E(%s)"
    [.integerPart, .mantissaFraction, .plainFraction, .exponent]
    [mantissa, plainDigits, signedInteger]
  let scientificRepeating ← compose "scientific with repeating fraction" "(%s)\\.%sE(%s)"
    [.integerPart, .exponent] [mantissa, suffix, signedInteger]
  let anyNumber ← compose "any number" "(%s)|(%s)|(%s)|(%s)|(%s)"
    [.repeatingScientific, .scientific, .repeatingDecimal, .decimal, .integer]
    [scientificRepeating, scientificNumber, decimalRepeating, decimalNumber, integerNumber]

  let call ← compose "function call" "(%s)(%s+)"
    [.functionName, .functionArguments] [name, placeholder]
  let anyOperand ← compose "any number equivalent" "(%s)|(%s)|(%s)|(%s)"
    [.subExpression, .functionCall, .variableName, .number] [placeholder, call, name, anyNumber]
  let unary ← compose "unary operation" "(%s)?(%s)" [.negation, .operand] [minus, anyOperand]
  let binary ← compose "binary operation" "(%s)(%s)"
    [.binaryOperator, .unaryOperation] [operator, unary]

  return {
    integer := integerNumber
    decimal := decimalNumber
    repeatingDecimal := decimalRepeating
    scientific := scientificNumber
    repeatingScientific := scientificRepeating
    anyNumber := anyNumber
    unaryOperation := unary
    binaryOperator := operator
    binaryOperation := binary
    aggregationToken := aggregation }

/-- The tables fit together. -/
theorem build_isOk : build.isOk = true := by decide +kernel

/-- The grammar. No proof has to look inside by accident: it is large. -/
@[irreducible] def standard : Grammar :=
  match h : build with
  | .ok g => g
  | .error _ => absurd build_isOk (by rw [h]; exact Bool.false_ne_true)

end Grammar

/-- The forms a text can be asked for. -/
inductive Form
  | integer
  | decimal
  | repeatingDecimal
  | scientific
  | repeatingScientific
  | anyNumber
  | unaryOperation
  | binaryOperator
  | binaryOperation
  | aggregationToken
deriving DecidableEq, Repr

namespace Form

def all : List Form :=
  [integer, decimal, repeatingDecimal, scientific, repeatingScientific, anyNumber, unaryOperation,
    binaryOperator, binaryOperation, aggregationToken]

/-- The component of the grammar that describes a form. -/
def component : Form → Component
  | integer => Grammar.standard.integer
  | decimal => Grammar.standard.decimal
  | repeatingDecimal => Grammar.standard.repeatingDecimal
  | scientific => Grammar.standard.scientific
  | repeatingScientific => Grammar.standard.repeatingScientific
  | anyNumber => Grammar.standard.anyNumber
  | unaryOperation => Grammar.standard.unaryOperation
  | binaryOperator => Grammar.standard.binaryOperator
  | binaryOperation => Grammar.standard.binaryOperation
  | aggregationToken => Grammar.standard.aggregationToken

end Form

end Reckon
