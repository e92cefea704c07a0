import MultiPattern.Datum
import MultiPattern.Fault

/-!
# Names of patterns

A pattern is named by its place in the list it was given in. Patterns of the
same bytes are different patterns, and the one given first comes first wherever
patterns are listed.
-/

namespace MultiPattern

/-- The place of a pattern in the list of patterns. -/
@[ext] structure PatternId where
  index : Nat
deriving DecidableEq

namespace PatternId

/-- The first pattern. -/
def first : PatternId :=
  ⟨0⟩

/-- Patterns are ordered by their place. -/
def order (p q : PatternId) : Ordering :=
  compare p.index q.index

/-- Put a pattern into an ascending list, unless it is already there. -/
def insertInto (p : PatternId) : List PatternId → List PatternId
  | [] => [p]
  | q :: rest =>
      if p.index < q.index then p :: q :: rest
      else if p = q then q :: rest
      else q :: p.insertInto rest

theorem mem_insertInto {p x : PatternId} {ps : List PatternId} :
    x ∈ p.insertInto ps ↔ x = p ∨ x ∈ ps := by
  induction ps with
  | nil => simp [insertInto]
  | cons q rest ih =>
      rw [insertInto]
      split
      · exact List.mem_cons
      · split
        · next heq =>
            subst heq
            simp
        · rw [List.mem_cons, ih, List.mem_cons]
          exact or_left_comm

/-- An ascending list stays ascending, and so without repetition. -/
theorem pairwise_insertInto {p : PatternId} {ps : List PatternId}
    (h : ps.Pairwise (·.index < ·.index)) :
    (p.insertInto ps).Pairwise (·.index < ·.index) := by
  induction ps with
  | nil => simp [insertInto]
  | cons q rest ih =>
      obtain ⟨hq, hrest⟩ := List.pairwise_cons.1 h
      rw [insertInto]
      split
      · next hlt =>
          refine List.pairwise_cons.2 ⟨?_, h⟩
          intro x hx
          rcases List.mem_cons.1 hx with rfl | hx
          · exact hlt
          · exact Nat.lt_trans hlt (hq x hx)
      · split
        · exact h
        · next hge hne =>
            refine List.pairwise_cons.2 ⟨?_, ih hrest⟩
            intro x hx
            rcases mem_insertInto.1 hx with rfl | hx
            · have : x.index ≠ q.index := fun he => hne (PatternId.ext he)
              omega
            · exact hq x hx

/-- The number of the pattern. -/
def toText (p : PatternId) : String :=
  toString p.index

/-- The number of the pattern behind its kind. -/
def outline (p : PatternId) : String :=
  "PatternID(" ++ p.toText ++ ")"

/-- Read a pattern's number from data: digits, of a value that fits a word. -/
def ofDatum? : Datum → Option PatternId
  | .natural n => if n < wordBound then some ⟨n⟩ else none
  | _ => none

/-- Write a pattern's number as data. -/
def toDatum (p : PatternId) : Datum :=
  .natural p.index

end PatternId

end MultiPattern
