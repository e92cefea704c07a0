import MultiPattern.Outline
import MultiPattern.PatternId

/-!
# Hits

What a scan knows of an occurrence when it finds one: which pattern it is of,
and the byte that was read last. Where the occurrence begins follows from the
length of the pattern, and a scan does not ask for it.
-/

namespace MultiPattern

/-- A pattern that was found to end in the text. -/
structure Hit where
  pattern : PatternId
  /-- The offset of the last byte that was read. -/
  last : Nat
deriving DecidableEq

namespace Hit

/-- Hits are ordered by pattern, and for one pattern by offset. -/
def order (x y : Hit) : Ordering :=
  (x.pattern.order y.pattern).then (compare x.last y.last)

/-- The hits in that order. -/
def sort (hits : List Hit) : List Hit :=
  hits.mergeSort fun x y => (x.order y).isLE

/-- The hit written out. -/
def outline (h : Hit) : String :=
  Outline.record "PatternMatch" [("pattern", h.pattern.outline), ("end", toString h.last)]

end Hit

end MultiPattern
