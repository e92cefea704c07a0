import MultiPattern.Cursor
import MultiPattern.Matcher

/-!
# Searching a text

A search is a scan whose hits are turned into occurrences, one at a time.
Occurrences come in the order in which their last bytes are read, and where
several end at one byte, in the order of their patterns.
-/

namespace MultiPattern

/-- A search in a text, at some moment. -/
structure Search where
  matcher : Matcher
  cursor : Cursor

/-- Search a text from its beginning. -/
def Matcher.search (m : Matcher) (haystack : Bytes) : Search :=
  ⟨m, m.automaton.scan haystack⟩

namespace Search

/-- The next occurrence, and the search after it. -/
def next (s : Search) : Option Occurrence × Search :=
  let (hit, cursor) := s.cursor.next
  (hit.map s.matcher.occurrence, { s with cursor })

instance : Feed Search Occurrence :=
  ⟨next, fun s => s.cursor.bound⟩

end Search

namespace Matcher

/-- All occurrences in a text. -/
def findAll (m : Matcher) (haystack : Bytes) : List Occurrence :=
  Feed.rest (m.search haystack)

/-- Some pattern occurs in the text. -/
def isMatch (m : Matcher) (haystack : Bytes) : Bool :=
  (m.search haystack).next.1.isSome

end Matcher

end MultiPattern
