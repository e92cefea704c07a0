/-!
# Names of states

A state is named by its place in the arena of its automaton. Two states have a
fixed name in every automaton: the start state, where nothing has been read,
and the dead state, from which no search returns.
-/

namespace MultiPattern

/-- The place of a state in an automaton. -/
@[ext] structure StateId where
  index : Nat
deriving DecidableEq

namespace StateId

/-- Where every search begins. -/
def start : StateId :=
  ⟨0⟩

/-- Where a search has ended for good. -/
def dead : StateId :=
  ⟨1⟩

/-- States are ordered by their place. -/
def order (s t : StateId) : Ordering :=
  compare s.index t.index

/-- The number of the state. -/
def toText (s : StateId) : String :=
  toString s.index

/-- The number of the state behind its kind. -/
def outline (s : StateId) : String :=
  "StateID(" ++ s.toText ++ ")"

end StateId

end MultiPattern
