/-!
# Things that give their items one at a time

A `Feed` is a state that can be asked for the next item and answers with the
item, or with nothing at its end, and the state after the question. Being asked
at the end may change the state too, so the operations say exactly how often
they ask: `take` stops at the first end and does not ask again, `nth` asks for
every item it skips.

A feed also bounds how many items it has left. That makes `drain`, which asks
until the end is reached, a `take` of as many items as there can be and one
more. A copy of a feed is the same value, so looking ahead is asking and
forgetting the state after it.
-/

namespace MultiPattern

/-- A state that gives items one at a time. -/
class Feed (σ : Type) (α : outParam Type) where
  /-- The next item, and the state after asking for it. -/
  next : σ → Option α × σ
  /-- At least as many as there are items left. -/
  bound : σ → Nat

namespace Feed

variable {σ α : Type} [Feed σ α]

/-- At most `n` items, and the state after the last question. -/
def take : Nat → σ → List α × σ
  | 0, s => ([], s)
  | n + 1, s =>
      match next s with
      | (none, s) => ([], s)
      | (some item, s) =>
          let (items, s) := take n s
          (item :: items, s)

/-- The item after `n` others. -/
def nth : Nat → σ → Option α × σ
  | 0, s => next s
  | n + 1, s =>
      match next s with
      | (none, s) => (none, s)
      | (some _, s) => nth n s

/-- All items that are left, and the state at the end. -/
def drain (s : σ) : List α × σ :=
  take (bound s + 1) s

/-- All items that are left. -/
def rest (s : σ) : List α :=
  (drain s).1

/-- How many items are left, and the state at the end. -/
def count (s : σ) : Nat × σ :=
  let (items, s) := drain s
  (items.length, s)

end Feed

end MultiPattern
