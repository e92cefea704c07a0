import MultiPattern.ByteTable
import MultiPattern.Outline
import MultiPattern.PatternId
import MultiPattern.StateId

/-!
# A state of the automaton

A state stands for a string of bytes that some pattern begins with. It knows
which state a further byte leads to, which patterns are reported on entering
it, where to go on when no transition is defined for the byte at hand, and how
long its string is.

Transitions are a table over all bytes, and every view of them lists the bytes
in ascending order: `edges` one by one, `runs` with neighbouring bytes of the
same target joined.
-/

namespace MultiPattern

/-- A state of the automaton. -/
@[ext] structure State where
  /-- The state that a byte leads to. -/
  next : ByteTable (Option StateId)
  /-- The patterns reported on entering the state, ascending and without
  repetition. -/
  outputs : List PatternId
  /-- Where to go on when no transition is defined. -/
  failure : StateId
  /-- How many bytes lead here from the start state. -/
  depth : Nat
deriving DecidableEq

/-- Neighbouring bytes with transitions to the same state. -/
structure Run where
  first : UInt8
  last : UInt8
  target : StateId
deriving DecidableEq

namespace State

/-- A state that nothing is known of but its depth. -/
def fresh (depth : Nat) : State :=
  ⟨ByteTable.replicate none, [], .start, depth⟩

/-- Entering the state reports a pattern. -/
def isMatch (s : State) : Bool :=
  !s.outputs.isEmpty

/-- The transitions that are defined, in byte order. -/
def edges (s : State) : List (UInt8 × StateId) :=
  s.next.entries.filterMap fun (b, target) => target.map (b, ·)

/-- The state with a transition on `b`. -/
def setNext (s : State) (b : UInt8) (target : StateId) : State :=
  { s with next := s.next.set b (some target) }

/-- The state reporting `p` as well. -/
def accept (s : State) (p : PatternId) : State :=
  { s with outputs := p.insertInto s.outputs }

/-- The state reporting `ps` as well. -/
def acceptAll (s : State) (ps : List PatternId) : State :=
  ps.foldl accept s

theorem mem_edges {s : State} {b : UInt8} {target : StateId} :
    (b, target) ∈ s.edges ↔ s.next.get b = some target := by
  rw [edges, List.mem_filterMap]
  refine ⟨?_, ?_⟩
  · intro h
    obtain ⟨⟨c, target'⟩, hmem, hc⟩ := h
    obtain ⟨t, ht, heq⟩ := Option.map_eq_some_iff.1 hc
    cases heq
    rw [ByteTable.mem_entries.1 hmem]
    exact ht
  · intro h
    exact ⟨(b, some target), ByteTable.mem_entries.2 h, rfl⟩

theorem next_setNext (s : State) (b c : UInt8) (target : StateId) :
    (s.setNext b target).next.get c = if b = c then some target else s.next.get c :=
  ByteTable.get_set _ _ _ _

theorem mem_outputs_acceptAll {s : State} {ps : List PatternId} {x : PatternId} :
    x ∈ (s.acceptAll ps).outputs ↔ x ∈ s.outputs ∨ x ∈ ps := by
  induction ps generalizing s with
  | nil => simp [acceptAll]
  | cons p rest ih =>
      rw [acceptAll, List.foldl_cons, ← acceptAll, ih, accept, PatternId.mem_insertInto,
        List.mem_cons, or_comm (a := x = p), or_assoc]

/-- Put a transition in front of the runs of the transitions after it. -/
def addToRuns (edge : UInt8 × StateId) : List Run → List Run
  | [] => [⟨edge.1, edge.1, edge.2⟩]
  | run :: rest =>
      if edge.1.toNat + 1 = run.first.toNat && edge.2 = run.target then
        { run with first := edge.1 } :: rest
      else ⟨edge.1, edge.1, edge.2⟩ :: run :: rest

/-- The transitions that are defined, in as few runs as possible. -/
def runs (s : State) : List Run :=
  s.edges.foldr addToRuns []

/-- The state written out. -/
def outline (s : State) : String :=
  let edge := fun (b, target) => Outline.tuple "" [toString b.toNat, StateId.outline target]
  Outline.record "State"
    [("transitions", Outline.list (s.edges.map edge)),
      ("matches", Outline.list (s.outputs.map PatternId.outline)),
      ("failed", s.failure.outline),
      ("depth", toString s.depth)]

end State

end MultiPattern
