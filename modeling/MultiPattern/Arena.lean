import MultiPattern.State

/-!
# The arena of states

The states of an automaton are kept in one array and named by their place in
it, so that a name given once stays good: states are added at the end and
changed in place, never moved or removed. Reading the state of a name that was
not given out finds a fresh state; `state?` tells the two apart.

Two walks are recorded here: `follow` goes along transitions and reads a byte at
each step, `failureChain` goes along failure links and reads nothing.
-/

namespace MultiPattern

/-- The states of an automaton, in the order they were added. -/
structure Arena where
  cells : Array State
deriving DecidableEq

namespace Arena

/-- The start and the dead state and nothing else. -/
def empty : Arena :=
  ⟨#[State.fresh 0, State.fresh 0]⟩

/-- How many states there are. -/
def size (a : Arena) : Nat :=
  a.cells.size

/-- The names of the states, in order. -/
def ids (a : Arena) : List StateId :=
  (List.range a.size).map StateId.mk

/-- The state of that name, if there is one. -/
def state? (a : Arena) (s : StateId) : Option State :=
  a.cells[s.index]?

/-- The state of that name. -/
def state (a : Arena) (s : StateId) : State :=
  (a.state? s).getD (State.fresh 0)

/-- The state that `b` leads to from `s`. -/
def next (a : Arena) (s : StateId) (b : UInt8) : Option StateId :=
  (a.state s).next.get b

/-- Change the state of that name. -/
def modify (a : Arena) (s : StateId) (f : State → State) : Arena :=
  ⟨a.cells.modify s.index f⟩

/-- Add a state; its name is the number of states before. -/
def push (a : Arena) (s : State) : Arena :=
  ⟨a.cells.push s⟩

theorem size_modify (a : Arena) (s : StateId) (f : State → State) :
    (a.modify s f).size = a.size := by
  simp [size, modify]

theorem size_push (a : Arena) (s : State) : (a.push s).size = a.size + 1 := by
  simp [size, push]

theorem state?_eq_none_iff {a : Arena} {s : StateId} : a.state? s = none ↔ a.size ≤ s.index :=
  Array.getElem?_eq_none_iff

/-- A change is seen under the name that was changed and under no other. -/
theorem state_modify (a : Arena) (s t : StateId) (f : State → State) (h : s.index < a.size) :
    (a.modify s f).state t = if s = t then f (a.state t) else a.state t := by
  simp only [state, state?, modify, Array.getElem?_modify, ← StateId.ext_iff]
  split
  · next heq =>
      subst heq
      rw [Array.getElem?_eq_getElem h]
      rfl
  · rfl

/-- A new state is found under the name it was given, and the names given out
before keep theirs. -/
theorem state_push (a : Arena) (s : State) (t : StateId) :
    (a.push s).state t = if t.index = a.size then s else a.state t := by
  by_cases h : t.index = a.size
  · rw [if_pos h, state, state?, push, h, size, Array.getElem?_push_size, Option.getD_some]
  · have hcells : ¬t.index = a.cells.size := h
    rw [if_neg h, state, state?, push, Array.getElem?_push, if_neg hcells, state, state?]

/-- An arena is no more than its states. -/
theorem ext_state {a a' : Arena} (hsize : a.size = a'.size)
    (h : ∀ s : StateId, s.index < a.size → a.state s = a'.state s) : a = a' := by
  cases a with
  | mk cells =>
      cases a' with
      | mk cells' =>
          refine congrArg Arena.mk (Array.ext hsize fun i hi hi' => ?_)
          have hstate := h ⟨i⟩ hi
          rwa [state, state, state?, state?, Array.getElem?_eq_getElem hi,
            Array.getElem?_eq_getElem hi'] at hstate

/-- The states visited by reading `bytes` from `s` without failure links, up to
the first byte without a transition. -/
def follow (a : Arena) (s : StateId) : Bytes → List StateId
  | [] => [s]
  | b :: rest =>
      match a.next s b with
      | none => [s]
      | some t => s :: a.follow t rest

/-- The states along the failure links from `s`, up to the first that is the
start or the dead state. Every link leads to a shallower state, so the depth of
`s` bounds their number. -/
def failureChain (a : Arena) (s : StateId) : List StateId :=
  walk ((a.state s).depth + 1) s
where
  walk : Nat → StateId → List StateId
    | 0, s => [s]
    | fuel + 1, s =>
        if s = .start ∨ s = .dead then [s]
        else s :: walk fuel (a.state s).failure

end Arena

end MultiPattern
