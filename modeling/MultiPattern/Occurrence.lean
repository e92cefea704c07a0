import MultiPattern.Fault
import MultiPattern.Outline
import MultiPattern.PatternId
import MultiPattern.Text.Utf8

/-!
# Occurrences

An occurrence of a pattern is a place in a text where its bytes stand, given by
the offsets of the first and of the last byte. An occurrence of an empty
pattern has no bytes, so it begins after the byte it is found with.
-/

namespace MultiPattern

/-- An occurrence of a pattern in a text. -/
structure Occurrence where
  pattern : PatternId
  /-- The bytes of the pattern. -/
  bytes : Bytes
  /-- The offset of the first byte. -/
  start : Nat
  /-- The offset of the last byte. -/
  last : Nat
deriving DecidableEq

namespace Occurrence

/-- How many bytes the occurrence has. -/
def length (m : Occurrence) : Nat :=
  m.bytes.length

/-- The pattern is empty. -/
def isEmpty (m : Occurrence) : Bool :=
  m.bytes.isEmpty

/-- The offsets of the first byte and of the byte after the last. -/
def range (m : Occurrence) : Except Fault (Nat × Nat) := do
  return (m.start, ← successor m.last)

/-- The occurrence for a reader: its bytes as text, and where they are. -/
def display (m : Occurrence) : String :=
  Text.ofUtf8 m.bytes ++ " " ++ Outline.list [toString m.start, toString m.last]

/-- The occurrence written out. -/
def outline (m : Occurrence) : String :=
  Outline.record "Match"
    [("pattern", m.pattern.outline),
      ("bytes", Outline.bytes m.bytes),
      ("start", toString m.start),
      ("end", toString m.last)]

end Occurrence

end MultiPattern
