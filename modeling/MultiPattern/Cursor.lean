import MultiPattern.Automaton
import MultiPattern.Feed
import MultiPattern.Hit

/-!
# Scanning a text

A cursor stands between two bytes of a text and in a state of the automaton. It
moves in rounds, and one round does one thing: report a pattern of the state
that was entered last, follow a failure link without moving in the text, read a
byte and enter the state it leads to, or find that the scan is over. A scan is
over at the end of the text, and also when the next byte leads to the dead
state, which is remembered.

Asking for the next hit is going round until a hit is reported or the scan is
over. Every round but the last either reads a byte, which makes the state
deeper by one at most, or follows a failure link, which makes it shallower; so
twice the bytes left and the depth together fall with every round, and they
bound the rounds that a question takes.
-/

namespace MultiPattern

/-- A scan of a text, at some moment. -/
structure Cursor where
  automaton : Automaton
  haystack : Array UInt8
  /-- The offset of the byte that is read next. -/
  position : Nat
  state : StateId
  /-- The patterns still to be reported before the next byte is read. -/
  pending : List PatternId
  /-- The offset that they end at. -/
  pendingLast : Nat
  /-- The dead state was reached. -/
  dead : Bool

/-- What one round came to. -/
inductive Round where
  /-- A hit was reported. -/
  | report (hit : Hit) (after : Cursor)
  /-- A failure link was followed. -/
  | fall (after : Cursor)
  /-- A byte was read. -/
  | read (after : Cursor)
  /-- There will be no more hits. -/
  | over (after : Cursor)

namespace Cursor

/-- The state that the cursor is in. -/
def here (c : Cursor) : State :=
  c.automaton.arena.state c.state

/-- The patterns reported on entering a state: all of them, or under a leftmost
rule the first. -/
def reported (kind : MatchKind) (outputs : List PatternId) : List PatternId :=
  if kind.isLeftmost then outputs.take 1 else outputs

/-- Read a byte and enter the state that it leads to. If the state reports
nothing, the offset of the last report stays as it was. -/
def enter (c : Cursor) (target : StateId) : Cursor :=
  let outputs := (c.automaton.arena.state target).outputs
  let moved := { c with state := target, position := c.position + 1 }
  if outputs.isEmpty then moved
  else
    { moved with
      pending := reported c.automaton.settings.kind outputs
      pendingLast := c.position }

/-- One round. -/
def round (c : Cursor) : Round :=
  match c.pending with
  | p :: rest => .report ⟨p, c.pendingLast⟩ { c with pending := rest }
  | [] =>
      if c.dead then .over c
      else
        match c.haystack[c.position]? with
        | none => .over c
        | some b =>
            match c.here.next.get b with
            | none => .fall { c with state := c.here.failure }
            | some target =>
                if target = .dead then .over { c with dead := true }
                else .read (c.enter target)

/-- A number that falls with every round in which the cursor moves. -/
def potential (c : Cursor) : Nat :=
  2 * (c.haystack.size - c.position) + c.here.depth

/-- Go round until a hit is reported or the scan is over, at most `fuel`
times. -/
def go : Nat → Cursor → Option Hit × Cursor
  | 0, c => (none, c)
  | fuel + 1, c =>
      match c.round with
      | .report hit after => (some hit, after)
      | .fall after => go fuel after
      | .read after => go fuel after
      | .over after => (none, after)

/-- The next hit, and the cursor after it. -/
def next (c : Cursor) : Option Hit × Cursor :=
  go (c.potential + 1) c

/-- What is pending, and every pattern at every byte that is left, is more than
can be reported. -/
def bound (c : Cursor) : Nat :=
  c.pending.length + (c.haystack.size - c.position) * c.automaton.patternCount

instance : Feed Cursor Hit :=
  ⟨next, bound⟩

end Cursor

/-- A scan of a text from its beginning. -/
def Automaton.scan (a : Automaton) (haystack : Bytes) : Cursor :=
  ⟨a, haystack.toArray, 0, .start, [], 0, false⟩

end MultiPattern
