import MultiPattern.PatternId
import MultiPattern.Settings
import MultiPattern.StateId

/-!
# What is noted while patterns are compiled

Two things may surprise whoever gave the patterns, a pattern that will never be
reported and a state that ends the search, and each is noted in detail. The
last note sums up the automaton.
-/

namespace MultiPattern

/-- How closely someone must be watching to be told. -/
inductive Level where
  | trace
  | debug
deriving DecidableEq

/-- The name of the level. -/
def Level.name : Level → String
  | .trace => "TRACE"
  | .debug => "DEBUG"

/-- The automaton in numbers. -/
structure Summary where
  patterns : Nat
  pruned : Nat
  states : Nat
  alphabet : Nat
  settings : Settings
deriving DecidableEq

/-- Something that happened during compilation. -/
inductive Event where
  /-- A pattern was given up at a state of that depth, which already reports
  another. -/
  | pruned (pattern : PatternId) (depth : Nat)
  /-- A state that reports a pattern was made to fail to the dead state. -/
  | cut (state : StateId)
  /-- The automaton is finished. -/
  | compiled (summary : Summary)
deriving DecidableEq

namespace Event

/-- The level of an event. -/
def level : Event → Level
  | .pruned _ _ => .trace
  | .cut _ => .trace
  | .compiled _ => .debug

/-- The event in words. -/
def message : Event → String
  | .pruned _ _ => "pruned pattern"
  | .cut _ => "failure link to dead state"
  | .compiled _ => "compiled aho-corasick automaton"

end Event

end MultiPattern
