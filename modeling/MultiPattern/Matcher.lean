import MultiPattern.Automaton.Compile
import MultiPattern.Hit
import MultiPattern.Occurrence

/-!
# Matchers

A matcher keeps the patterns beside the automaton compiled from them, and so
can say of every hit where the occurrence begins and which bytes it is made of.
-/

namespace MultiPattern

/-- Patterns, and the automaton that searches for them. -/
structure Matcher where
  patterns : Array Bytes
  automaton : Automaton

namespace Matcher

/-- Compile patterns as the settings say. -/
def build (settings : Settings) (patterns : List Bytes) : Matcher :=
  ⟨patterns.toArray, Automaton.compile settings patterns⟩

/-- Compile patterns to find every occurrence, letter case told apart. -/
def ofPatterns (patterns : List Bytes) : Matcher :=
  build .default patterns

/-- Compile patterns for a rule of matching, letter case told apart. -/
def ofKind (kind : MatchKind) (patterns : List Bytes) : Matcher :=
  build { kind } patterns

/-- How many patterns there are. -/
def patternCount (m : Matcher) : Nat :=
  m.patterns.size

/-- The bytes of a pattern. -/
def pattern (m : Matcher) (p : PatternId) : Except Fault Bytes :=
  (Fault.noEntry m.patterns.size p.index).ifNone m.patterns[p.index]?

/-- The occurrence that a hit reports: as many bytes as the pattern has, up to
the last one read. -/
def occurrence (m : Matcher) (h : Hit) : Occurrence :=
  let bytes := m.patterns.getD h.pattern.index []
  ⟨h.pattern, bytes, h.last + 1 - bytes.length, h.last⟩

end Matcher

end MultiPattern
