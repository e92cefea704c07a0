import MultiPattern.Arena

/-!
# Breadth-first order

The states of a prefix tree are visited level by level, and within a level in
the order of their parents and then of the bytes that lead to them. A state
that is reached on two bytes, as every letter's state is under case folding, is
visited once, for the lesser byte.

The order is computed from the bare tree, before anything else is written into
it: no state has two parents there, so no record is needed of the states that
were visited, and the tree is exhausted after as many levels as it is high.
-/

namespace MultiPattern

/-- One step down the tree. -/
structure Branch where
  parent : StateId
  byte : UInt8
  child : StateId
deriving DecidableEq

namespace Branch

/-- Of the branches to one child, only the first. -/
def firstToEach : List Branch → List Branch
  | [] => []
  | e :: rest => e :: (firstToEach rest).filter (·.child ≠ e.child)

theorem mem_of_mem_firstToEach {es : List Branch} {e : Branch} (h : e ∈ firstToEach es) :
    e ∈ es := by
  induction es with
  | nil => exact h
  | cons x rest ih =>
      rw [firstToEach] at h
      rcases List.mem_cons.1 h with rfl | h
      · exact List.mem_cons_self
      · exact List.mem_cons_of_mem x (ih (List.mem_filter.1 h).1)

/-- Every child is still reached. -/
theorem exists_mem_firstToEach {es : List Branch} {e : Branch} (h : e ∈ es) :
    ∃ e' ∈ firstToEach es, e'.child = e.child := by
  induction es with
  | nil => cases h
  | cons x rest ih =>
      rw [firstToEach]
      by_cases hx : e.child = x.child
      · exact ⟨x, List.mem_cons_self, hx.symm⟩
      · rcases List.mem_cons.1 h with rfl | h
        · exact absurd rfl hx
        · obtain ⟨e', he', heq⟩ := ih h
          refine ⟨e', List.mem_cons_of_mem x (List.mem_filter.2 ⟨he', ?_⟩), heq⟩
          rw [heq]
          simpa using hx

/-- No child is reached twice. -/
theorem nodup_map_child_firstToEach (es : List Branch) :
    ((firstToEach es).map (·.child)).Nodup := by
  induction es with
  | nil => exact List.nodup_nil
  | cons x rest ih =>
      rw [firstToEach, List.map_cons, List.nodup_cons]
      refine ⟨?_, ih.sublist (List.filter_sublist.map _)⟩
      intro hx
      obtain ⟨e, he, heq⟩ := List.mem_map.1 hx
      have := (List.mem_filter.1 he).2
      simp [heq] at this

end Branch

namespace Arena

/-- The branches below `s`, one for every child, in the order of the least byte
that leads to it. -/
def branches (a : Arena) (s : StateId) : List Branch :=
  Branch.firstToEach ((a.state s).edges.map fun (b, child) => ⟨s, b, child⟩)

/-- The branches of the next `height` levels below the states of one level. -/
def levels (a : Arena) : Nat → List StateId → List Branch
  | 0, _ => []
  | height + 1, level =>
      let below := level.flatMap a.branches
      below ++ a.levels height (below.map (·.child))

/-- The branches of a tree of that height in breadth-first order. -/
def breadthFirst (a : Arena) (height : Nat) : List Branch :=
  a.levels height [.start]

end Arena

end MultiPattern
