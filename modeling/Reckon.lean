import Reckon.Calculator
import Reckon.Tree.Outline
import Reckon.Grammar.Notation
import Reckon.Proofs.Component
import Reckon.Proofs.Decimal
import Reckon.Proofs.Outcomes
import Reckon.Proofs.Numeral
import Reckon.Proofs.Digits
import Reckon.Proofs.LongDivision
import Reckon.Proofs.LowestTerms
import Reckon.Proofs.LiteralValue
import Reckon.Proofs.ExactForm
import Reckon.Formula.Syntax
import Reckon.Proofs.Precedence
import Reckon.Proofs.Spelling
import Reckon.Proofs.Scan
import Reckon.Proofs.Tree
import Reckon.Formula.Spelling
import Reckon.Proofs.Greedy
import Reckon.Proofs.Munch
import Reckon.Proofs.Operand
import Reckon.Proofs.Operation
import Reckon.Proofs.Content
import Reckon.Proofs.Groups
import Reckon.Proofs.Resolve
import Reckon.Proofs.NumberForm
import Reckon.Proofs.Render
import Reckon.Tree.Builder
import Reckon.Proofs.Arena
import Reckon.Proofs.FiniteForm
import Reckon.Proofs.Meaning
import Reckon.Proofs.Reprint
import Reckon.Proofs.Viable
import Reckon.Proofs.Shape
import Reckon.Proofs.Rational
import Reckon.Proofs.Operands
import Reckon.Proofs.Invariance
import Reckon.Proofs.Variables
import Reckon.Proofs.Numbering
import Reckon.Proofs.Diagnostics
import Reckon.Tree.Tokens
import Reckon.Formula.Offsets
import Reckon.Proofs.Bytes
import Reckon.Proofs.Tokens
import Reckon.Proofs.Offsets
import Reckon.Proofs.Defects
import Reckon.Proofs.Nesting
import Reckon.Proofs.Composition
import Reckon.Proofs.Layout
import Reckon.Proofs.Arithmetic
import Reckon.Proofs.Canonical
import Reckon.Proofs.LiteralOperand
import Reckon.Proofs.LiteralInput
import Reckon.Proofs.Power
import Reckon.Proofs.Located
import Reckon.Proofs.Brackets
import Reckon.Proofs.Unclosed
import Reckon.Proofs.Comparison
import Reckon.Proofs.Counts
import Reckon.Proofs.Stripping
import Reckon.Proofs.Carets
import Reckon.Proofs.Registration
import Reckon.Proofs.Builtins
import Reckon.Proofs.PartForms
import Reckon.Proofs.BracketKinds
import Reckon.Proofs.Passes
