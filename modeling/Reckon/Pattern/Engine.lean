import Reckon.Pattern.Automaton
import Reckon.Pattern.Reader
import Reckon.Regex.Engine

/-!
# The engine of patterns

Sources in the notation of patterns compile to automata.
-/

namespace Reckon.Pattern

structure Program where
  pattern : Pattern
  /-- The automaton of the pattern, made once for all texts. -/
  automaton : Automaton
  automaton_eq : automaton = pattern.automaton

def Program.of (p : Pattern) : Program := ⟨p, p.automaton, rfl⟩

@[reducible] def engine : Engine where
  Program := Program
  compile source := (ofSource source).map Program.of
  captureCount program := program.pattern.groups.length
  captures program text := program.automaton.search text 0
  isMatch program text := (program.automaton.search text 0).isSome
  tokens program text := program.automaton.tokens text

end Reckon.Pattern
