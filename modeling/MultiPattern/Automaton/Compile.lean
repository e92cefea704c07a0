import MultiPattern.Arena.Links
import MultiPattern.Automaton

/-!
# From patterns to the automaton

The patterns make a prefix tree; the loops of the start and the dead state are
closed, so that following failure links always comes to an end; the links are
written in breadth-first order; and last the start state is shut if a match is
committed there.

Three things are noted on the way: the patterns that are given up, by the tree
while they are inserted, the states that are cut off, while the links are
written, and at the end what the automaton has come to.
-/

namespace MultiPattern

namespace Trie

/-- The branches of the tree in breadth-first order. No state is deeper than
the longest pattern. -/
def branches (t : Trie) : List Branch :=
  t.arena.breadthFirst t.maxLength

/-- The tree with its loops closed, ready for links. -/
def looped (t : Trie) : Arena :=
  t.arena.closeStart.closeDead

/-- The tree with links and loops. -/
def linked (kind : MatchKind) (t : Trie) : Arena :=
  (t.looped.linkAll kind t.branches).shutStart kind

end Trie

namespace Automaton

/-- The automaton of a prefix tree. -/
def ofTrie (settings : Settings) (t : Trie) : Automaton :=
  { settings
    arena := t.linked settings.kind
    alphabet := t.alphabet
    lengths := t.lengths
    minLength := t.minLength
    maxLength := t.maxLength }

/-- Compile a list of patterns. -/
def compile (settings : Settings) (patterns : List Bytes) : Automaton :=
  ofTrie settings (Trie.ofPatterns settings patterns)

/-- The automaton in numbers, where so many patterns were given up. -/
def summary (a : Automaton) (pruned : Nat) : Summary :=
  { patterns := a.patternCount
    pruned
    states := a.arena.size
    alphabet := a.alphabet.size
    settings := a.settings }

/-- What is noted while a list of patterns is compiled: first the patterns that
are given up, then the states that are cut off, last a summary. -/
def compileEvents (settings : Settings) (patterns : List Bytes) : List Event :=
  let t := Trie.ofPatterns settings patterns
  t.events ++ t.looped.linkEvents settings.kind t.branches ++
    [.compiled ((ofTrie settings t).summary t.prunedCount)]

end Automaton

end MultiPattern
