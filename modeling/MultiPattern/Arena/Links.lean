import MultiPattern.Arena.Order
import MultiPattern.Event

/-!
# Failure links

A search that has read the string of a state, and finds no transition for the
next byte, goes on with the longest proper suffix of that string that is a
state too. `link` writes this into the arena for the child of one branch: the
suffix of the child is found from the suffix of its parent, by following
failure links until one has a transition on the byte of the branch. The links
looked at belong to shallower states, so they are final if the branches are
taken in breadth-first order.

The child also takes over what its failure state reports, because what ends in
the suffix ends in the child as well. Under a leftmost rule a child that
reports a pattern of its own takes over nothing and fails to the dead state
instead: a search that cannot go on below a match is over.
-/

namespace MultiPattern

namespace State

/-- The state with another failure link. -/
def failTo (s : State) (target : StateId) : State :=
  { s with failure := target }

end State

namespace Arena

/-- Bytes that begin no pattern lead from the start state back to it. -/
def closeStart (a : Arena) : Arena :=
  a.modify .start fun s => { s with next := s.next.map fun t => some (t.getD .start) }

/-- Every byte leads from the dead state back to it. -/
def closeDead (a : Arena) : Arena :=
  a.modify .dead fun s => { s with next := ByteTable.replicate (some .dead) }

/-- If the start state reports a pattern under a leftmost rule, that match is
committed before the first byte, and bytes that begin no pattern lead to the
dead state instead of back. -/
def shutStart (kind : MatchKind) (a : Arena) : Arena :=
  if kind.isLeftmost && (a.state .start).isMatch then
    a.modify .start fun s =>
      { s with next := s.next.map fun t => if t = some .start then some .dead else t }
  else a

/-- The target of the first transition on `b` among the states from `s` along
failure links, looking at no more than `fuel` of them. -/
def linkTarget? (a : Arena) (b : UInt8) : Nat → StateId → Option StateId
  | 0, _ => none
  | fuel + 1, s =>
      match a.next s b with
      | some t => some t
      | none => a.linkTarget? b fuel (a.state s).failure

/-- The state of the longest proper suffix of the child's string, if its parent
is not the start state; the dead state, if the links from the parent come to it
first. Links lead to ever shallower states and the start and the dead state
have a transition on every byte, so the depth of the parent bounds how many
states are looked at. -/
def linkTarget (a : Arena) (e : Branch) : StateId :=
  let parent := a.state e.parent
  (a.linkTarget? e.byte (parent.depth + 1) parent.failure).getD .start

/-- A branch is cut under a leftmost rule if its child reports a pattern. -/
def isCut (a : Arena) (kind : MatchKind) (e : Branch) : Bool :=
  kind.isLeftmost && (a.state e.child).isMatch

/-- Write the failure link of the child of a branch, and what it takes over. The
string of a child of the start state has no proper suffix but the empty one,
and under a leftmost rule it does not take over what the empty one reports. -/
def link (kind : MatchKind) (a : Arena) (e : Branch) : Arena :=
  if a.isCut kind e then a.modify e.child (·.failTo .dead)
  else if e.parent = .start then
    if kind.isLeftmost then a
    else a.modify e.child (·.acceptAll (a.state .start).outputs)
  else
    let target := a.linkTarget e
    a.modify e.child fun s => (s.failTo target).acceptAll (a.state target).outputs

/-- Write the links of branches in their order. -/
def linkAll (kind : MatchKind) (a : Arena) (branches : List Branch) : Arena :=
  branches.foldl (link kind) a

/-- What is noted while the links of branches are written in their order: the
children that are cut off, each at the moment of its link. -/
def linkEvents (kind : MatchKind) (a : Arena) : List Branch → List Event
  | [] => []
  | e :: rest =>
      (if a.isCut kind e then [.cut e.child] else []) ++ (a.link kind e).linkEvents kind rest

end Arena

end MultiPattern
