/-!
# What a caller can do wrong

A search itself cannot fail. Two things that a caller may ask for have no
answer: the entry at an index past the end of a list, and the end of a range
that does not fit the word that numbers are kept in. `Fault` names them; every
question of the first kind is an optional answer with `Fault.ifNone` behind it,
and `successor` is the only sum of the second.
-/

namespace MultiPattern

/-- Offsets and places in a list lie below this bound, the first number that
needs more than the 64 bits of a word. -/
def wordBound : Nat :=
  0x1_0000_0000_0000_0000

/-- A question without an answer. -/
inductive Fault where
  /-- The list has `size` entries, and `index` is not the place of one. -/
  | noEntry (size index : Nat)
  /-- A sum of offsets does not fit their word. -/
  | offsetTooLarge
deriving DecidableEq

/-- The fault in words. -/
def Fault.message : Fault → String
  | .noEntry size index =>
      "index out of bounds: the len is " ++ toString size ++ " but the index is " ++
        toString index
  | .offsetTooLarge => "attempt to add with overflow"

/-- What was found, or the fault of not finding it. -/
def Fault.ifNone {α : Type} (fault : Fault) : Option α → Except Fault α
  | some found => .ok found
  | none => .error fault

/-- The offset after this one. -/
def successor (offset : Nat) : Except Fault Nat :=
  if offset + 1 < wordBound then .ok (offset + 1) else .error .offsetTooLarge

end MultiPattern
