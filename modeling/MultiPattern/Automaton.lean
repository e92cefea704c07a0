import MultiPattern.Trie

/-!
# The compiled automaton

What is left of a list of patterns once it is compiled: the finished arena of
states, the alphabet of the bytes that lead anywhere, and of each pattern only
its length, with the least and the greatest of the lengths. The patterns
themselves are not kept; a match is reported by the name of its pattern.
-/

namespace MultiPattern

/-- A compiled automaton. -/
structure Automaton where
  settings : Settings
  arena : Arena
  alphabet : Alphabet
  /-- The length of every pattern, those given up included. -/
  lengths : List Nat
  /-- The length of the shortest pattern, 0 if there is none. -/
  minLength : Nat
  /-- The length of the longest pattern, 0 if there is none. -/
  maxLength : Nat

namespace Automaton

/-- How many patterns were given. -/
def patternCount (a : Automaton) : Nat :=
  a.lengths.length

/-- The length of a pattern. -/
def patternLength (a : Automaton) (p : PatternId) : Except Fault Nat :=
  (Fault.noEntry a.patternCount p.index).ifNone a.lengths[p.index]?

/-- The state of that name. -/
def state (a : Automaton) (s : StateId) : Except Fault State :=
  (Fault.noEntry a.arena.size s.index).ifNone (a.arena.state? s)

/-- The states along the failure links from `s`, which has to be a state of the
automaton. -/
def failureChain (a : Automaton) (s : StateId) : Except Fault (List StateId) := do
  let _ ← a.state s
  return a.arena.failureChain s

/-- The states visited by reading `bytes` without failure links. -/
def follow (a : Automaton) (bytes : Bytes) : List StateId :=
  a.arena.follow .start bytes

end Automaton

end MultiPattern
