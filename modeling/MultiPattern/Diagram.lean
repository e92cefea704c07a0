import MultiPattern.Outline

/-!
# Directed graphs as text

A diagram is written in the language that graph drawing programs read: a line
for each node, numbered from 0, then a line for each arrow, each with a label
in quotation marks. Inside a label the quotation mark and the backslash are
written behind a backslash, so a label ends at the first quotation mark that
has none in front of it.

Who draws a diagram brings a printer of their own. `Diagram.Prints` is what is
relied on of it, and `Diagram.render` is such a printer.
-/

namespace MultiPattern

/-- An arrow from one node to another. -/
@[ext] structure Arrow where
  source : Nat
  target : Nat
  label : String
deriving DecidableEq

/-- A directed graph with labels. -/
@[ext] structure Diagram where
  /-- The labels of the nodes. -/
  nodes : List String
  arrows : List Arrow
deriving DecidableEq

namespace Diagram

/-- A label with what stands around it. -/
def label (escape : Char → List Char) (s : String) : String :=
  " [ label = \"" ++ String.ofList (s.toList.flatMap escape) ++ "\" ]\n"

/-- The line of a node. -/
def nodeLine (escape : Char → List Char) (node : String × Nat) : String :=
  "    " ++ toString node.2 ++ label escape node.1

/-- The line of an arrow. -/
def arrowLine (escape : Char → List Char) (arrow : Arrow) : String :=
  "    " ++ toString arrow.source ++ " -> " ++ toString arrow.target ++ label escape arrow.label

/-- What is relied on of a printer that writes the characters of labels by
`escape`. Nothing is asked about the end of a line inside a label. -/
structure Prints (escape : Char → List Char) (print : Diagram → String) : Prop where
  /-- A quotation mark and a backslash have a backslash put before them. -/
  escaped : ∀ c, c = '"' ∨ c = '\\' → escape c = ['\\', c]
  /-- Other characters stand for themselves. -/
  plain : ∀ c, c ≠ '"' → c ≠ '\\' → c ≠ '\n' → escape c = [c]
  /-- Behind the head there is a line for each node with its number, then one for
  each arrow with the numbers of both its ends, in their order, and last a brace. -/
  text : ∀ d : Diagram, print d =
    "digraph \x7b\n" ++ String.join (d.nodes.zipIdx.map (nodeLine escape)) ++
      String.join (d.arrows.map (arrowLine escape)) ++ "\x7d\n"

/-- A character as it stands in a label. The end of a line is written as that of a
line that is set to the left. -/
def labelChar (c : Char) : List Char :=
  if c = '"' ∨ c = '\\' then ['\\', c] else if c = '\n' then ['\\', 'l'] else [c]

/-- The diagram as text. -/
def render (d : Diagram) : String :=
  "digraph \x7b\n" ++
    String.join (d.nodes.zipIdx.map (nodeLine labelChar)) ++
    String.join (d.arrows.map (arrowLine labelChar)) ++
    "\x7d\n"

theorem prints_render : Prints labelChar render where
  escaped _ hc := if_pos hc
  plain c hquote hslash hend := by
    rw [labelChar, if_neg (not_or.2 ⟨hquote, hslash⟩), if_neg hend]
  text _ := rfl

end Diagram

end MultiPattern
