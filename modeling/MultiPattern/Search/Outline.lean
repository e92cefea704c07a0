import MultiPattern.Automaton.Drawing
import MultiPattern.Search

/-!
# Matchers and searches written out

A matcher is summed up: its patterns, its settings and the size of its
automaton. A scan in progress shows everything it goes on from.
-/

namespace MultiPattern

/-- The matcher written out. -/
def Matcher.outline (m : Matcher) : String :=
  Outline.record "AhoCorasick"
    [("patterns", Outline.list (m.patterns.toList.map Outline.bytes)),
      ("match_kind", m.automaton.settings.kind.outline),
      ("ascii_case_insensitive", Outline.bool m.automaton.settings.foldCase),
      ("n_states", toString m.automaton.arena.size)]

/-- The scan written out. -/
def Cursor.outline (c : Cursor) : String :=
  Outline.record "NfaTraverser"
    [("automaton", c.automaton.outline),
      ("haystack", Outline.bytes c.haystack.toList),
      ("pos", toString c.position),
      ("state", c.state.outline),
      ("pending", Outline.tuple "Iter" [Outline.list (c.pending.map PatternId.outline)]),
      ("pending_end", toString c.pendingLast),
      ("dead", Outline.bool c.dead)]

/-- The search written out. -/
def Search.outline (s : Search) : String :=
  Outline.record "FindIter"
    [("matcher", s.matcher.outline), ("traverser", s.cursor.outline)]

end MultiPattern
