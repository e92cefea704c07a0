import MultiPattern.Alphabet
import MultiPattern.Arena
import MultiPattern.Event

/-!
# The prefix tree of the patterns

Patterns are inserted one after the other. Each walks from the start state
along the transitions that are there and adds a state where there is none, and
the state it ends in reports it. Under case folding a new state is reached on
both cases of a letter, so that a text need not be folded before it is read.

Under a leftmost rule a pattern can be given up on the way. If the walk meets a
state that reports some pattern already, that pattern is a proper beginning of
this one and was given first, so wherever both occur it is the one to be
reported. The longer pattern then keeps its name and its length and is never
reported. The tree counts the patterns that were given up, and notes at which
depth each of them was.
-/

namespace MultiPattern

/-- The prefix tree of the patterns inserted so far. -/
structure Trie where
  arena : Arena
  /-- The bytes that were walked along. -/
  alphabet : Alphabet
  /-- The length of every pattern, those given up included. -/
  lengths : List Nat
  /-- The least of the lengths, 0 as long as there is none. -/
  minLength : Nat
  /-- The greatest of the lengths, 0 as long as there is none. -/
  maxLength : Nat
  /-- How many patterns were given up. -/
  prunedCount : Nat
  /-- What was noted, in order. -/
  events : List Event

namespace Trie

/-- The tree without patterns. -/
def empty (foldCase : Bool) : Trie :=
  { arena := Arena.empty
    alphabet := Alphabet.empty foldCase
    lengths := []
    minLength := 0
    maxLength := 0
    prunedCount := 0
    events := [] }

/-- Record the length of another pattern. -/
def record (t : Trie) (length : Nat) : Trie :=
  { t with
    lengths := t.lengths ++ [length]
    minLength := if t.lengths.isEmpty then length else min t.minLength length
    maxLength := if t.lengths.isEmpty then length else max t.maxLength length }

/-- Add a state below `s`, reached on `b` and under folding on its opposite
case. -/
def branch (t : Trie) (s : StateId) (b : UInt8) : Trie × StateId :=
  let child : StateId := ⟨t.arena.size⟩
  let link := fun (parent : State) =>
    let parent := parent.setNext b child
    if t.alphabet.foldCase then parent.setNext (Byte.swapCase b) child else parent
  let depth := (t.arena.state s).depth + 1
  ({ t with arena := (t.arena.push (State.fresh depth)).modify s link }, child)

/-- The state below `s` on `b`, added if it is missing. The byte joins the
alphabet. -/
def descend (t : Trie) (s : StateId) (b : UInt8) : Trie × StateId :=
  let t := { t with alphabet := t.alphabet.add b }
  match t.arena.next s b with
  | some child => (t, child)
  | none => t.branch s b

/-- Insert the rest of the pattern `p` below `s`, unless it has to be given
up. -/
def insertFrom (kind : MatchKind) (p : PatternId) (t : Trie) (s : StateId) : Bytes → Trie
  | [] => { t with arena := t.arena.modify s (·.accept p) }
  | b :: rest =>
      if kind.isLeftmost && (t.arena.state s).isMatch then
        { t with
          prunedCount := t.prunedCount + 1
          events := t.events ++ [.pruned p (t.arena.state s).depth] }
      else
        let (t, child) := t.descend s b
        t.insertFrom kind p child rest

/-- Insert the next pattern. -/
def insert (kind : MatchKind) (t : Trie) (pattern : Bytes) : Trie :=
  let p : PatternId := ⟨t.lengths.length⟩
  (t.record pattern.length).insertFrom kind p .start pattern

/-- The tree of a list of patterns. -/
def ofPatterns (settings : Settings) (patterns : List Bytes) : Trie :=
  patterns.foldl (insert settings.kind) (empty settings.foldCase)

end Trie

end MultiPattern
