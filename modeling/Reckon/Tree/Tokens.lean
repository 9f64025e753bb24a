import Reckon.Grammar.Tables
import Reckon.Text.Bytes
import Reckon.Tree.Builder

/-!
# Building an arena token by token

Brackets and commas are tokens, which are looked up in the text first. The characters between two of
them are added to the open expression in one piece, cut out of the text by offsets in bytes, while
positions count characters.
-/

namespace Reckon

/-- Where the tokens of a text stand, in bytes. -/
def aggregationTokens (text : List Char) : List Span :=
  (Form.aggregationToken.component.tokens text).map (Span.bytes text)

namespace Builder

/-- Adds a piece of content that starts at `position`. -/
def content (b : Builder) (position : Nat) (piece : List Char) : Except ParseFault Builder :=
  if piece.isEmpty then .ok b
  else
    let (id, b) := b.currentExpression position
    b.updateExpression id (·.append position piece)

def token (limit : Nat) (b : Builder) (position : Nat) (c : Char) : Except ParseFault Builder :=
  if c = separator then b.separate position
  else
    match Bracket.ofOpening c with
    | some bracket => b.openGroup limit position bracket
    | none => b.closeGroup position c

/-- Reads the content before each token and the token itself, and what stands behind the last one.
Before these, `offset` bytes and `position` characters were read. -/
def runTokens (limit : Nat) (text : List Char) :
    List Span → (offset position : Nat) → Builder → Except ParseFault Builder
  | [], offset, position, b => do
    let (_, piece) ← (cutAt text offset).mapError .defect
    b.content position piece
  | t :: ts, offset, position, b => do
    let piece ← (sliceBytes text offset t.start).mapError .defect
    let b ← b.content position piece
    let token ← (sliceBytes text t.start t.stop).mapError .defect
    let b ← b.token limit (position + piece.length) (token.headD '\x00')
    runTokens limit text ts t.stop (position + piece.length + 1) b

end Builder

namespace Arena

/-- The arena of a text, as `Arena.ofText` builds it character by character. -/
def ofTokens (limit : Nat) (t : Text) : Except ParseFault Arena :=
  let reserved := t.positionsOf [placeholder]
  if reserved.isEmpty then
    match Builder.runTokens limit t.stripped (aggregationTokens t.stripped) 0 0 .start with
    | .error fault => .error fault
    | .ok b => b.finish t
  else .error (.reservedCharacter placeholder reserved)

def ofRawTokens (settings : Settings) (raw : String) : Except (Report ParseFault) Arena :=
  match Text.ofRaw raw with
  | .error fault => .error ⟨fault, none⟩
  | .ok t => (ofTokens settings.maxDepth t).mapError (t.report settings ParseFault.carets)

end Arena

end Reckon
