import MultiPattern.Automaton
import MultiPattern.Diagram

/-!
# Drawing an automaton

A drawing shows every state under its number, with the patterns it reports, and
an arrow for every target of its transitions, labelled with the bytes that lead
there. Failure links are arrows too.

What goes without saying is left out: the transitions by which the start and
the dead state lead back to themselves, and failure links to the start state.
Many bytes with one target are only counted.

How a diagram becomes text is up to the printer it is handed to (`drawnBy`).
-/

namespace MultiPattern

namespace Automaton

/-- More bytes than this on one arrow are counted and not listed. -/
def maxListed : Nat :=
  8

/-- The start and the dead state lead back to themselves. -/
def loops (s : StateId) : Bool :=
  s = .start || s = .dead

/-- A state as it is called in a drawing. -/
def stateName (s : StateId) : String :=
  if s = .start then "start" else if s = .dead then "dead" else s.toText

/-- A state with the patterns it reports. -/
def nodeLabel (a : Automaton) (s : StateId) : String :=
  let outputs := (a.arena.state s).outputs
  if outputs.isEmpty then stateName s
  else stateName s ++ " " ++ Outline.list (outputs.map PatternId.toText)

/-- The bytes on an arrow. -/
def bytesLabel (bytes : Bytes) : String :=
  if bytes.length > maxListed then toString bytes.length ++ " bytes"
  else String.intercalate " " (bytes.map fun b => String.ofList (Byte.escaped b))

/-- The transitions of a state that are shown. -/
def shownEdges (a : Automaton) (s : StateId) : List (UInt8 × StateId) :=
  (a.arena.state s).edges.filter fun (_, target) => !(loops s && target = s)

/-- The bytes that lead to `target` among some transitions. -/
def bytesTo (edges : List (UInt8 × StateId)) (target : StateId) : Bytes :=
  (edges.filter (·.2 = target)).map (·.1)

/-- The arrows for the transitions of a state, by target. -/
def edgeArrows (a : Automaton) (s : StateId) : List Arrow :=
  let edges := a.shownEdges s
  (a.arena.ids.filter fun target => edges.any (·.2 = target)).map fun target =>
    ⟨s.index, target.index, bytesLabel (bytesTo edges target)⟩

/-- The arrow for the failure link of a state, if it is shown. -/
def failureArrow (a : Automaton) (s : StateId) : List Arrow :=
  let target := (a.arena.state s).failure
  if s = .start ∨ target = .start then [] else [⟨s.index, target.index, "FAIL"⟩]

/-- The drawing of an automaton. -/
def diagram (a : Automaton) : Diagram :=
  { nodes := a.arena.ids.map a.nodeLabel
    arrows := a.arena.ids.flatMap fun s => a.edgeArrows s ++ a.failureArrow s }

/-- The drawing as text, by a printer of diagrams. -/
def drawnBy (print : Diagram → String) (a : Automaton) : String :=
  print a.diagram

/-- The drawing as text. -/
def drawing (a : Automaton) : String :=
  a.drawnBy Diagram.render

/-- An automaton inside another value is shown by its drawing. -/
def outline (a : Automaton) : String :=
  a.drawing

end Automaton

end MultiPattern
